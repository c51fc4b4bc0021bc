import NonAxiomatic.Text.Basic

/-!
# Bytes and places

What a text is when it is written as UTF-8: bytes that need not be characters, and places that need
not lie between them.

* `pieces_nil`: where there are no bytes, there is no piece.
* `length_bytes`: the place at the end of a text is the number of its bytes.
* `cutAt_eq_ok_iff`: a text is cut between its characters and nowhere else.
* `slice_append`: a slice is the characters between two places.
* `placeOf?_eq`, `lastPlaceOf?_eq`, `placeOfWord?_eq`: what is found stands behind as many bytes as
  its place says.
-/

namespace NonAxiomatic

/-! ## Bytes as text

Bytes that need not be UTF-8 are cut into pieces (`Text.pieces`): the characters that stand in
them, and between these the longest runs of bytes with which a character could have begun. From
the pieces follow both a readable text with a mark for every such run (`Text.readable`) and the
place of the first one (`Text.fault?`).
-/

namespace Text

inductive Piece where
  | char (c : Char)
  | stray (bytes : Nat)
  /-- So many bytes of a character that is cut off by the end. -/
  | cut (bytes : Nat)
deriving DecidableEq, Repr

/-- A character of several bytes that is not complete. -/
structure Pending where
  missing : Nat
  /-- The least byte that may come next. -/
  low : Nat
  /-- The greatest byte that may come next. -/
  high : Nat
  value : Nat
  read : Nat
deriving DecidableEq, Repr

/-- What begins with a byte. The second byte of a character has a narrower range where it would
otherwise write a character that has a shorter form, half of a surrogate pair, or nothing. -/
def beginWith (b : Nat) : Piece ⊕ Pending :=
  if b < 0x80 then .inl (.char (Char.ofNat b))
  else if b < 0xC2 then .inl (.stray 1)
  else if b < 0xE0 then .inr ⟨1, 0x80, 0xBF, b - 0xC0, 1⟩
  else if b = 0xE0 then .inr ⟨2, 0xA0, 0xBF, 0, 1⟩
  else if b = 0xED then .inr ⟨2, 0x80, 0x9F, 0xD, 1⟩
  else if b < 0xF0 then .inr ⟨2, 0x80, 0xBF, b - 0xE0, 1⟩
  else if b = 0xF0 then .inr ⟨3, 0x90, 0xBF, 0, 1⟩
  else if b < 0xF4 then .inr ⟨3, 0x80, 0xBF, b - 0xF0, 1⟩
  else if b = 0xF4 then .inr ⟨3, 0x80, 0x8F, 4, 1⟩
  else .inl (.stray 1)

def feedFirst (done : List Piece) (b : Nat) : List Piece × Option Pending :=
  match beginWith b with
  | .inl piece => (piece :: done, none)
  | .inr pending => (done, some pending)

def feed (pieces : List Piece × Option Pending) (byte : UInt8) : List Piece × Option Pending :=
  let b := byte.toNat
  match pieces with
  | (done, none) => feedFirst done b
  | (done, some p) =>
    if p.low ≤ b ∧ b ≤ p.high then
      let value := p.value * 0x40 + b % 0x40
      if p.missing = 1 then (.char (Char.ofNat value) :: done, none)
      else (done, some ⟨p.missing - 1, 0x80, 0xBF, value, p.read + 1⟩)
    else feedFirst (.stray p.read :: done) b

def pieces (bytes : List UInt8) : List Piece :=
  match bytes.foldl feed ([], none) with
  | (done, none) => done.reverse
  | (done, some p) => (.cut p.read :: done).reverse

/-- The character that stands for a piece: for what is no character, the mark `U+FFFD`. -/
def Piece.shown : Piece → Char
  | char c => c
  | stray _ | cut _ => Char.ofNat 0xFFFD

def readable (bytes : ByteArray) : String :=
  match String.fromUTF8? bytes with
  | some s => s
  | none => String.ofList ((pieces bytes.data.toList).map Piece.shown)

/-- Where the first piece stands that is no character, seen from a place, and the number of its
bytes unless it is cut off by the end. -/
def faultFrom? (place : Nat) : List Piece → Option (Nat × Option Nat)
  | [] => none
  | .char c :: rest => faultFrom? (place + c.utf8Size) rest
  | .stray n :: _ => some (place, some n)
  | .cut _ :: _ => some (place, none)

def fault? (bytes : ByteArray) : Option (Nat × Option Nat) :=
  faultFrom? 0 (pieces bytes.data.toList)

@[simp] theorem pieces_nil : pieces [] = [] := rfl

/-! ## Places in a text

A text is also addressed by places: the number of bytes that write the characters before a place in
UTF-8. What stands between two places is a slice of the text (`slice`). To ask for one that ends
before it begins, or at a place that is behind the text or within a character, is a fault
(`Fault`), and so is to count further than the machine word that counts.
-/

/-- What can be wrong with places and counters. -/
inductive Fault where
  | reversed
  | outOfRange
  /-- A place is within the bytes of one character. -/
  | insideCharacter
  | overflow
deriving DecidableEq, Repr

def Fault.message : Fault → String
  | reversed => "slice index starts behind its end"
  | outOfRange => "index out of bounds"
  | insideCharacter => "byte index is not a char boundary"
  | overflow => "attempt to add with overflow"

/-! ### Bytes -/

def bytes (text : List Char) : List UInt8 := text.flatMap String.utf8EncodeChar

/-- The character with the number of the byte at a place. -/
def byteAt? (text : List Char) (place : Nat) : Option Char :=
  (bytes text)[place]?.map fun byte => Char.ofNat byte.toNat

/-- The number of bytes that write a text, which is the place at its end. -/
def byteCount : List Char → Nat
  | [] => 0
  | c :: rest => c.utf8Size + byteCount rest

@[simp] theorem byteCount_nil : byteCount [] = 0 := rfl

@[simp] theorem byteCount_cons (c : Char) (text : List Char) :
    byteCount (c :: text) = c.utf8Size + byteCount text := rfl

@[simp] theorem byteCount_append (before after : List Char) :
    byteCount (before ++ after) = byteCount before + byteCount after := by
  induction before with
  | nil => rw [List.nil_append, byteCount_nil, Nat.zero_add]
  | cons c before ih => rw [List.cons_append, byteCount_cons, byteCount_cons, ih, Nat.add_assoc]

theorem byteCount_eq_zero_iff {text : List Char} : byteCount text = 0 ↔ text = [] := by
  cases text with
  | nil => exact iff_of_true rfl rfl
  | cons c text =>
    refine iff_of_false (Nat.ne_of_gt ?_) (List.cons_ne_nil c text)
    exact Nat.add_pos_left c.utf8Size_pos _

theorem length_bytes (text : List Char) : (bytes text).length = byteCount text := by
  induction text with
  | nil => rfl
  | cons c text ih =>
    rw [bytes, List.flatMap_cons, List.length_append, String.length_utf8EncodeChar, ← bytes, ih,
      byteCount_cons]

/-! ### Counting -/

def back (place n : Nat) : Except Fault Nat :=
  if n ≤ place then .ok (place - n) else .error .overflow

/-- A number that is held by a word of 32 bits with a sign. -/
def signed32 (n : Int) : Except Fault Int :=
  if -0x80000000 ≤ n ∧ n < 0x80000000 then .ok n else .error .overflow

def sum64 (m n : UInt64) : Except Fault UInt64 :=
  if m.toNat + n.toNat < UInt64.size then .ok (m + n) else .error .overflow

theorem back_eq_ok {place n : Nat} (h : n ≤ place) : back place n = .ok (place - n) := if_pos h

theorem signed32_eq_ok {n : Int} (h : n.natAbs < 0x80000000) : signed32 n = .ok n :=
  if_pos (by omega)

/-! ### Cutting -/

/-- What stands before a place, and what stands behind it. -/
def cutAt : List Char → Nat → Except Fault (List Char × List Char)
  | text, 0 => .ok ([], text)
  | [], _ + 1 => .error .outOfRange
  | c :: rest, place + 1 =>
    if place + 1 < c.utf8Size then .error .insideCharacter
    else (cutAt rest (place + 1 - c.utf8Size)).map fun (before, after) => (c :: before, after)

def slice (text : List Char) (start stop : Nat) : Except Fault (List Char) := do
  if stop < start then throw .reversed
  let (upTo, _) ← cutAt text stop
  let (_, part) ← cutAt upTo start
  return part

def sliceTo (text : List Char) (stop : Nat) : Except Fault (List Char) :=
  Prod.fst <$> cutAt text stop

def sliceFrom (text : List Char) (start : Nat) : Except Fault (List Char) :=
  Prod.snd <$> cutAt text start

def erase (text : List Char) (start stop : Nat) : Except Fault (List Char) := do
  if stop < start then throw .reversed
  return (← sliceTo text start) ++ (← sliceFrom text stop)

theorem cutAt_append (before after : List Char) :
    cutAt (before ++ after) (byteCount before) = .ok (before, after) := by
  induction before with
  | nil => rw [List.nil_append, byteCount_nil, cutAt]
  | cons c before ih =>
    obtain ⟨n, hn⟩ := Nat.exists_eq_succ_of_ne_zero (Nat.ne_of_gt c.utf8Size_pos)
    have hplace : byteCount (c :: before) = n + byteCount before + 1 := by
      rw [byteCount_cons, hn]
      omega
    rw [List.cons_append, hplace, cutAt, if_neg (by omega), hn,
      show n + byteCount before + 1 - n.succ = byteCount before by omega, ih]
    rfl

theorem cutAt_eq_ok_iff {text before after : List Char} {place : Nat} :
    cutAt text place = .ok (before, after) ↔ text = before ++ after ∧ place = byteCount before := by
  constructor
  · intro h
    fun_induction cutAt text place generalizing before with
    | case1 text => cases h; exact ⟨rfl, rfl⟩
    | case2 | case3 => cases h
    | case4 c rest place hle ih =>
      cases hcut : cutAt rest (place + 1 - c.utf8Size) with
      | error _ => rw [hcut] at h; cases h
      | ok parts =>
        rw [hcut] at h
        cases h
        obtain ⟨hrest, hplace⟩ := ih hcut
        exact ⟨by rw [hrest]; rfl, by rw [byteCount_cons]; omega⟩
  · rintro ⟨rfl, rfl⟩
    exact cutAt_append before after

theorem slice_append (before part after : List Char) :
    slice (before ++ part ++ after) (byteCount before) (byteCount before + byteCount part) =
      .ok part := by
  have hstop := cutAt_append (before ++ part) after
  rw [byteCount_append] at hstop
  have horder : ¬byteCount before + byteCount part < byteCount before := by omega
  rw [slice, if_neg horder, hstop]
  show (cutAt (before ++ part) (byteCount before) >>= _) = _
  rw [cutAt_append]
  rfl

theorem sliceTo_append (before after : List Char) :
    sliceTo (before ++ after) (byteCount before) = .ok before := by
  rw [sliceTo, cutAt_append]
  rfl

theorem sliceFrom_append (before after : List Char) :
    sliceFrom (before ++ after) (byteCount before) = .ok after := by
  rw [sliceFrom, cutAt_append]
  rfl

theorem erase_append (before part after : List Char) :
    erase (before ++ part ++ after) (byteCount before) (byteCount before + byteCount part) =
      .ok (before ++ after) := by
  have hbefore := sliceTo_append before (part ++ after)
  have hafter := sliceFrom_append (before ++ part) after
  rw [← List.append_assoc] at hbefore
  rw [byteCount_append] at hafter
  rw [erase, if_neg (Nat.not_lt.2 (Nat.le_add_right _ _)), hbefore, hafter]
  rfl

/-! ### Finding places -/

def placeOf? (c : Char) : List Char → Option Nat
  | [] => none
  | d :: rest => if d == c then some 0 else (placeOf? c rest).map (d.utf8Size + ·)

def lastPlaceOf? (c : Char) : List Char → Option Nat
  | [] => none
  | d :: rest =>
    match lastPlaceOf? c rest with
    | some place => some (d.utf8Size + place)
    | none => if d == c then some 0 else none

def placeOfWord? (word : List Char) : List Char → Option Nat
  | [] => if word.isEmpty then some 0 else none
  | d :: rest =>
    if word.isPrefixOf (d :: rest) then some 0
    else (placeOfWord? word rest).map (d.utf8Size + ·)

theorem placeOf?_eq (c : Char) (text : List Char) :
    placeOf? c text = (cutFirst? c text).map fun parts => byteCount parts.1 := by
  induction text with
  | nil => rfl
  | cons d rest ih =>
    rw [placeOf?, cutFirst?, ih]
    split
    · rfl
    · rw [Option.map_map, Option.map_map]
      rfl

theorem lastPlaceOf?_eq (c : Char) (text : List Char) :
    lastPlaceOf? c text = (cutLast? c text).map fun parts => byteCount parts.1 := by
  induction text with
  | nil => rfl
  | cons d rest ih =>
    rw [lastPlaceOf?, cutLast?, ih]
    cases cutLast? c rest with
    | some parts => rfl
    | none =>
      show (if _ then _ else _) = Option.map _ (if _ then _ else _)
      split <;> rfl

theorem placeOfWord?_eq (word text : List Char) :
    placeOfWord? word text = (cutWord? word text).map fun parts => byteCount parts.1 := by
  induction text with
  | nil =>
    rw [placeOfWord?, cutWord?]
    split <;> rfl
  | cons d rest ih =>
    rw [placeOfWord?, cutWord?, ih]
    split
    · rfl
    · rw [Option.map_map, Option.map_map]
      rfl

end Text

end NonAxiomatic
