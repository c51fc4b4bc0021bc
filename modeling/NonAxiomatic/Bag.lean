import NonAxiomatic.Truth
import Std.Data.TreeMap

/-!
# Bags

A store of limited size for values under keys. What is looked at (`Bag.peek`) and what has to go
when the store is full (`Bag.takeMin`) is drawn at random: the first prefers a high priority, the
second a low quality. To this end every key lies in one bucket for its priority and in one for
what its quality lacks, and follows its budget from bucket to bucket.

* `Keystream.takeBelow_lt`: a draw keeps below its bound.
* `row_insert`, `row_erase`: inserting and erasing change one bucket.
-/

namespace NonAxiomatic

/-! ## Sources of draws

Bags and memories choose at random. What they choose by is a state `σ` from which numbers are
drawn one after the other; they work with any `DrawSource`, so that what holds of them holds
whatever is drawn.

`Script` is the source that draws numbers written down before.
-/

class DrawSource (σ : Type) where
  below : (n : Nat) → σ → Nat × σ
  coin : σ → Bool × σ
  below_lt : ∀ (n : Nat) (s : σ), 0 < n → (below n s).1 < n

/-- Numbers written down before, to be drawn in this order; when they have run out, zeros. -/
structure Script where
  left : List Nat
deriving DecidableEq, Repr, Inhabited

def Script.next (s : Script) : Nat × Script :=
  match s.left with
  | [] => (0, s)
  | n :: left => (n, ⟨left⟩)

/-- A number that is too large is reduced by its bound; a coin shows its first side on even
numbers. -/
instance : DrawSource Script where
  below n s := (s.next.1 % n, s.next.2)
  coin s := (s.next.1 % 2 == 0, s.next.2)
  below_lt _ _ h := Nat.mod_lt _ h

/-! ## The keystream

The source of draws of a seeded reasoner: the ChaCha stream cipher with twelve rounds, whose key
is grown from the seed. A block of the stream is a square of sixteen words, scrambled: its first
row is constant, the next two are the key and the last one is the block's number.

A number below `n` is the high half of a random word times `n`; words that would favour some
numbers are passed over.
-/

structure Lanes where
  (w x y z : UInt32)
deriving DecidableEq, Repr, Inhabited

namespace Lanes

def zip (f : UInt32 → UInt32 → UInt32) (a b : Lanes) : Lanes :=
  ⟨f a.w b.w, f a.x b.x, f a.y b.y, f a.z b.z⟩

instance : Add Lanes := ⟨zip (· + ·)⟩

instance : XorOp Lanes := ⟨zip (· ^^^ ·)⟩

def rotateBits (bits : UInt32) (x : UInt32) : UInt32 := (x <<< bits) ||| (x >>> (32 - bits))

def rotate (bits : UInt32) (a : Lanes) : Lanes :=
  ⟨rotateBits bits a.w, rotateBits bits a.x, rotateBits bits a.y, rotateBits bits a.z⟩

def turn (a : Lanes) : Lanes := ⟨a.x, a.y, a.z, a.w⟩

def toList (a : Lanes) : List UInt32 := [a.w, a.x, a.y, a.z]

end Lanes

structure Square where
  (a b c d : Lanes)
deriving DecidableEq, Repr, Inhabited

namespace Square

instance : Add Square := ⟨fun s t => ⟨s.a + t.a, s.b + t.b, s.c + t.c, s.d + t.d⟩⟩

def mixColumns (s : Square) : Square :=
  let a := s.a + s.b
  let d := (s.d ^^^ a).rotate 16
  let c := s.c + d
  let b := (s.b ^^^ c).rotate 12
  let a := a + b
  let d := (d ^^^ a).rotate 8
  let c := c + d
  let b := (b ^^^ c).rotate 7
  ⟨a, b, c, d⟩

/-- Mix each diagonal: the columns after each row has been turned by its number. -/
def mixDiagonals (s : Square) : Square :=
  let t := mixColumns ⟨s.a, s.b.turn, s.c.turn.turn, s.d.turn.turn.turn⟩
  ⟨t.a, t.b.turn.turn.turn, t.c.turn.turn, t.d.turn⟩

def scramble (s : Square) : Square := Nat.repeat (fun t => t.mixColumns.mixDiagonals) 6 s + s

def toList (s : Square) : List UInt32 := s.a.toList ++ s.b.toList ++ s.c.toList ++ s.d.toList

end Square

structure Keystream where
  key : Lanes
  key' : Lanes
  block : UInt64
  /-- The words of the last block that have not been drawn. -/
  left : List UInt32
deriving DecidableEq, Repr, Inhabited

namespace Keystream

/-! ### Words -/

def header : Lanes := ⟨0x61707865, 0x3320646e, 0x79622d32, 0x6b206574⟩

def nextBlock (s : Keystream) : Square :=
  Square.scramble
    ⟨header, s.key, s.key', ⟨s.block.toUInt32, (s.block >>> 32).toUInt32, 0, 0⟩⟩

def word32 (s : Keystream) : UInt32 × Keystream :=
  match s.left with
  | w :: left => (w, { s with left })
  | [] =>
    let b := s.nextBlock
    (b.a.w, { s with block := s.block + 1, left := b.toList.tail })

def word64 (s : Keystream) : UInt64 × Keystream :=
  let (low, s) := s.word32
  let (high, s) := s.word32
  (low.toUInt64 ||| (high.toUInt64 <<< 32), s)

/-! ### Seeds -/

def growSeed (state : UInt64) : UInt64 := state * 6364136223846793005 + 11634580027462260723

def keyWord (state : UInt64) : UInt32 :=
  let x := (((state >>> 18) ^^^ state) >>> 27).toUInt32
  let right := (state >>> 59).toUInt32
  (x >>> right) ||| (x <<< ((32 - right) % 32))

def growLanes (state : UInt64) : Lanes × UInt64 :=
  let s₁ := growSeed state
  let s₂ := growSeed s₁
  let s₃ := growSeed s₂
  let s₄ := growSeed s₃
  (⟨keyWord s₁, keyWord s₂, keyWord s₃, keyWord s₄⟩, s₄)

def ofSeed (seed : UInt64) : Keystream :=
  let (key, state) := growLanes seed
  let (key', _) := growLanes state
  { key, key', block := 0, left := [] }

/-! ### Draws -/

/-- The number of tries for one draw. Each of them succeeds at least every second time, so that
not even one draw in `2 ^ tries` would need more. -/
def tries : Nat := 0x100000

/-- Draw below `n` from words below `size`: the greatest multiple of `n` that is a power of two
times as large bounds the low parts that are taken. -/
def takeBelow (draw : Keystream → Nat × Keystream) (size n : Nat) :
    (tries : Nat) → Keystream → Nat × Keystream
  | 0, s => let (v, s) := draw s; (v % n, s)
  | tries + 1, s =>
    let (v, s') := draw s
    let zone := n <<< ((size - 1).log2 - n.log2)
    if v * n % size < zone ∧ v * n / size < n then (v * n / size, s')
    else takeBelow draw size n tries s'

/-- Draw below `n` from words of 64 bits. -/
def below (n : Nat) (s : Keystream) : Nat × Keystream :=
  takeBelow (fun s => let (v, s) := s.word64; (v.toNat, s)) UInt64.size n tries s

def coin (s : Keystream) : Bool × Keystream :=
  let (v, s) := takeBelow (fun s => let (v, s) := s.word32; (v.toNat, s)) UInt32.size 2 tries s
  (v == 0, s)

theorem takeBelow_lt {draw : Keystream → Nat × Keystream} {size n : Nat} (h : 0 < n)
    (tries : Nat) (s : Keystream) : (takeBelow draw size n tries s).1 < n := by
  induction tries generalizing s with
  | zero => exact Nat.mod_lt _ h
  | succ tries ih =>
    simp only [takeBelow]
    split
    · rename_i hv
      exact hv.2
    · exact ih _

end Keystream

instance : DrawSource Keystream where
  below := Keystream.below
  coin := Keystream.coin
  below_lt _ s h := Keystream.takeBelow_lt h _ s

/-! ## Budgets

What decides how often an item of a bag is looked at (`priority`) and how long it is kept
(`quality`). Both are kept strictly between zero and one.
-/

/-- The standing of an item among the others of its bag. -/
structure Budget where
  priority : Double
  quality : Double
deriving BEq, Repr, Inhabited

namespace Budget

def floor : Double := 0.00000001

def ceiling : Double := 0.99999999

/-- A share moved into its range; what is no number counts as the least. -/
def clamp (x : Double) : Double :=
  if x.isNaN then floor else if x < floor then floor else if ceiling < x then ceiling else x

def of (priority quality : Double) : Budget := ⟨clamp priority, clamp quality⟩

def default : Budget := of 0.99 0.01

def withPriority (b : Budget) (priority : Double) : Budget := { b with priority := clamp priority }

def withQuality (b : Budget) (quality : Double) : Budget := { b with quality := clamp quality }

/-- The priority raised: by a share of what it lacks. -/
def strengthenPriority (b : Budget) (share : Double) : Budget :=
  b.withPriority (Scale.or [b.priority, share])

def qualityShare : Double := 0.1

/-- The quality raised: by a share of what it lacks. -/
def strengthenQuality (b : Budget) : Budget := b.withQuality (Scale.or [b.quality, qualityShare])

def decay (b : Budget) (share : Double) : Budget :=
  b.withPriority (Scale.and [b.priority, share])

end Budget

/-! ## Buckets

Keys in a row of buckets, one for each level of a share between zero and one. Drawing a key
prefers high levels: a walk over the levels starts anywhere below the highest one and stops at
a level that holds keys if a second draw does not exceed it.
-/

/-- Keys in the order of their arrival, in one bucket for each level. -/
structure Buckets where
  /-- The buckets, from the lowest level to the highest. -/
  rows : Array (Array String)
deriving DecidableEq, Repr, Inhabited

namespace Buckets

def empty (levels : Nat) : Buckets := ⟨Array.replicate levels #[]⟩

def row (b : Buckets) (level : Nat) : Array String := b.rows[level]?.getD #[]

def insert (b : Buckets) (level : Nat) (key : String) : Buckets :=
  ⟨b.rows.modify level fun row => row.push key⟩

def erase (b : Buckets) (level : Nat) (key : String) : Buckets :=
  ⟨b.rows.modify level fun row => row.erase key⟩

/-- The level of a share when there are `levels` of them. -/
def levelOf (levels : Nat) (share : Double) : Nat :=
  min (share * Double.ofNat levels).toUInt64.toNat (levels - 1)

/-! ### Drawing -/

variable {σ : Type} [DrawSource σ]

def bound (b : Buckets) : Nat := max (b.rows.size - 1) 1

def walk (b : Buckets) : (steps : Nat) → (level : Nat) → σ → Option Nat × σ
  | 0, _, s => (none, s)
  | steps + 1, level, s =>
    let next := (level + 1) % b.rows.size
    if (b.row level).isEmpty then b.walk steps next s
    else
      let (n, s) := DrawSource.below b.bound s
      if n ≤ level then (some level, s) else b.walk steps next s

/-- The number of steps after which a walk that has not stopped is broken off: so many rounds over
the levels. Every round stops it with a chance that is not small, so that none comes even close. -/
def maxSteps (b : Buckets) : Nat := 0x10000000000 * b.rows.size

def highest (b : Buckets) : Nat :=
  ((List.range b.rows.size).reverse.find? fun level => !(b.row level).isEmpty).getD 0

/-- Draw a key: a level by walking, then any of its keys. -/
def draw (b : Buckets) (s : σ) : Option String × σ :=
  let (start, s) := DrawSource.below b.bound s
  let (level, s) := b.walk b.maxSteps start s
  let row := b.row (level.getD b.highest)
  let (i, s) := DrawSource.below row.size s
  (row[i]?, s)

/-! ### Rows -/

@[simp] theorem size_insert (b : Buckets) (level : Nat) (key : String) :
    (b.insert level key).rows.size = b.rows.size := by simp [insert]

@[simp] theorem size_erase (b : Buckets) (level : Nat) (key : String) :
    (b.erase level key).rows.size = b.rows.size := by simp [erase]

theorem row_insert (b : Buckets) (level : Nat) (key : String) (i : Nat) :
    (b.insert level key).row i =
      if level = i ∧ i < b.rows.size then (b.row i).push key else b.row i := by
  simp only [row, insert, Array.getElem?_modify]
  by_cases h : level = i <;> by_cases hi : i < b.rows.size <;> simp [h, hi]

theorem row_erase (b : Buckets) (level : Nat) (key : String) (i : Nat) :
    (b.erase level key).row i =
      if level = i ∧ i < b.rows.size then (b.row i).erase key else b.row i := by
  simp only [row, erase, Array.getElem?_modify]
  by_cases h : level = i <;> by_cases hi : i < b.rows.size <;> simp [h, hi]

theorem levelOf_lt {levels : Nat} (h : 0 < levels) (share : Double) :
    levelOf levels share < levels := by
  simp only [levelOf]
  omega

end Buckets

/-! ## Bags -/

structure Item (α : Type) where
  value : α
  budget : Budget
deriving Repr, Inhabited

/-- A store of limited size from which is drawn at random. -/
structure Bag (α : Type) where
  capacity : Nat
  levels : Nat
  items : Std.TreeMap String (Item α)
  byPriority : Buckets
  /-- The keys by the levels of what their qualities lack. -/
  byLack : Buckets
deriving Inhabited

namespace Bag

variable {α σ : Type}

/-- A bag without items. It has room for one and tells one level apart at least. -/
def empty (capacity levels : Nat) : Bag α :=
  let levels := max levels 1
  { capacity := max capacity 1, levels, items := {}
    byPriority := .empty levels, byLack := .empty levels }

/-! ### Looking up -/

def size (b : Bag α) : Nat := b.items.size

def isEmpty (b : Bag α) : Bool := b.items.isEmpty

def contains (b : Bag α) (key : String) : Bool := b.items.contains key

def get? (b : Bag α) (key : String) : Option (Item α) := b.items[key]?

def toList (b : Bag α) : List (String × Item α) := b.items.toList

def priorityLevel (b : Bag α) (budget : Budget) : Nat := Buckets.levelOf b.levels budget.priority

def lackLevel (b : Bag α) (budget : Budget) : Nat :=
  Buckets.levelOf b.levels (1.0 - budget.quality)

/-! ### Changing -/

def link (b : Bag α) (key : String) (budget : Budget) : Bag α :=
  { b with
    byPriority := b.byPriority.insert (b.priorityLevel budget) key
    byLack := b.byLack.insert (b.lackLevel budget) key }

def unlink (b : Bag α) (key : String) (budget : Budget) : Bag α :=
  { b with
    byPriority := b.byPriority.erase (b.priorityLevel budget) key
    byLack := b.byLack.erase (b.lackLevel budget) key }

def add (b : Bag α) (key : String) (item : Item α) : Bag α :=
  let b := b.link key item.budget
  { b with items := b.items.insert key item }

def erase (b : Bag α) (key : String) : Bag α :=
  match b.get? key with
  | none => b
  | some item =>
    let b := b.unlink key item.budget
    { b with items := b.items.erase key }

def modify (b : Bag α) (key : String) (f : α → α) : Bag α :=
  { b with items := b.items.modify key fun item => { item with value := f item.value } }

def rebudget (b : Bag α) (key : String) (f : Budget → Budget) : Bag α :=
  match b.get? key with
  | none => b
  | some item =>
    let budget := f item.budget
    let b := (b.unlink key item.budget).link key budget
    { b with items := b.items.insert key { item with budget } }

def setPriority (b : Bag α) (key : String) (priority : Double) : Bag α :=
  b.rebudget key (·.withPriority priority)

def setQuality (b : Bag α) (key : String) (quality : Double) : Bag α :=
  b.rebudget key (·.withQuality quality)

def strengthenPriority (b : Bag α) (key : String) (share : Double) : Bag α :=
  b.rebudget key (·.strengthenPriority share)

def strengthenQuality (b : Bag α) (key : String) : Bag α := b.rebudget key (·.strengthenQuality)

def decay (b : Bag α) (key : String) (share : Double) : Bag α := b.rebudget key (·.decay share)

/-! ### Drawing -/

variable [DrawSource σ]

def drawFrom (b : Bag α) (buckets : Buckets) (s : σ) : Option (String × Item α) × σ :=
  if b.isEmpty then (none, s)
  else
    let (key, s) := buckets.draw s
    (key.bind fun key => (b.get? key).map fun item => (key, item), s)

def peek (b : Bag α) (s : σ) : Option (String × Item α) × σ := b.drawFrom b.byPriority s

def takeMin (b : Bag α) (s : σ) : Option (String × Item α) × Bag α × σ :=
  match b.drawFrom b.byLack s with
  | (some (key, item), s) => (some (key, item), b.erase key, s)
  | (none, s) => (none, b, s)

/-- Put a new item into a bag, from which another one is taken when there is no room; what is
under the key already stays. Gives what was taken. -/
def put (b : Bag α) (key : String) (value : α) (budget : Budget) (s : σ) :
    Option (String × Item α) × Bag α × σ :=
  if b.contains key then (none, b, s)
  else
    let (evicted, b, s) := if b.capacity ≤ b.size then b.takeMin s else (none, b, s)
    (evicted, b.add key ⟨value, budget⟩, s)

end Bag

end NonAxiomatic
