import NonAxiomatic.Json
import NonAxiomatic.Reader

/-!
# Snapshots

What remains of a reasoner between two runs: the cycle it was in, what it believed and what it
wanted. An entry keeps the statement as text, with its intervals beside it; what a sentence
rested on is not kept.

* `Header.ofBytes_toBytes_current`: a header is read as it was written.
* `Cursor.rest_next`: what is read is the first of the bytes that are left.
-/

namespace NonAxiomatic

/-! ## Sentences as JSON

The form in which a sentence is exchanged: its statement as text, its kind under the name of its
mark, and its stamp in full. `Sentence.toJson` takes the way in which doubles are written.
-/

def SentenceId.toJson (id : SentenceId) : Json := .nat id.number.toNat

def SentenceId.ofJson? (v : Json) : Option SentenceId :=
  (v.natBelow? UInt64.size).map fun n => ⟨n.toUInt64⟩

def TruthValue.toJson (double : Double → Json) (v : TruthValue Double) : Json :=
  .object [("frequency", double v.frequency), ("confidence", double v.confidence)]

/-- The value that JSON writes; it is taken as it stands. -/
def TruthValue.ofJson? (v : Json) : Option (TruthValue Double) := do
  let frequency ← (← v.get? "frequency").double?
  let confidence ← (← v.get? "confidence").double?
  return ⟨frequency, confidence⟩

def SentenceKind.toJson (double : Double → Json) (k : SentenceKind) : Json :=
  match k.value? with
  | some v => .object [(k.punctuation.name, v.toJson double)]
  | none => .string k.punctuation.name

def SentenceKind.ofJson? : Json → Option SentenceKind
  | .string name => if name == Punctuation.question.name then some .question else none
  | .object [(name, v)] =>
    if name == Punctuation.judgment.name then (TruthValue.ofJson? v).map .judgment
    else if name == Punctuation.goal.name then (TruthValue.ofJson? v).map .goal
    else none
  | _ => none

namespace Stamp

def toJson (s : Stamp) : Json :=
  .object [
    ("id", s.id.toJson),
    ("occurrence_time", .option (fun t => .nat t.toNat) s.occurrence),
    ("evidential_base", .object [("ids", .array (s.base.ids.map SentenceId.toJson))]),
    ("derived_by", .option (fun r => .string r.name) s.rule),
    ("parent_premises", .array (s.parents.map SentenceId.toJson)),
    ("from_one_premise_inference", .bool s.onePremise)]

def ofJson? (v : Json) : Option Stamp := do
  let id ← SentenceId.ofJson? (← v.get? "id")
  let occurrence ← (← v.get? "occurrence_time").option? (Json.natBelow? UInt64.size)
  let ids ← (← (← v.get? "evidential_base").get? "ids").items?
  let base ← ids.mapM SentenceId.ofJson?
  let rule ← (← v.get? "derived_by").option? fun r => r.text?.bind Rule.ofName?
  let parents ← (← (← v.get? "parent_premises").items?).mapM SentenceId.ofJson?
  let onePremise ← (← v.get? "from_one_premise_inference").bool?
  return { id, rule, parents, onePremise, base := ⟨base⟩
           occurrence := occurrence.map Nat.toUInt64 }

end Stamp

namespace Sentence

def toJson (double : Double → Json) (s : Sentence) : Json :=
  .object [
    ("statement", .string s.statement.text),
    ("kind", s.kind.toJson double),
    ("stamp", s.stamp.toJson),
    ("from_input", .bool s.fromInput),
    ("needs_answer", .bool s.needsAnswer)]

/-- The sentence that JSON writes. Its statement has lost its intervals. -/
def ofJson? (v : Json) : Option Sentence := do
  let statement ← (Term.parse (← (← v.get? "statement").text?)).toOption
  let kind ← SentenceKind.ofJson? (← v.get? "kind")
  let stamp ← Stamp.ofJson? (← v.get? "stamp")
  let fromInput ← (← v.get? "from_input").bool?
  let needsAnswer ← (← v.get? "needs_answer").bool?
  return { statement, kind, stamp, fromInput, needsAnswer }

end Sentence

/-! ## Snapshots -/

/-- A sentence as far as it is kept. -/
structure SnapshotEntry where
  statement : String
  kind : SentenceKind
  occurrence : Option Cycle
  /-- The intervals of the statement; none for those that its text is read with. -/
  intervals : List UInt32
deriving BEq, Repr, Inhabited

/-- What is kept of a reasoner. -/
structure Snapshot where
  cycle : Cycle := 0
  beliefs : List SnapshotEntry := []
  desires : List SnapshotEntry := []
deriving BEq, Repr, Inhabited

namespace SnapshotEntry

def toJson (double : Double → Json) (e : SnapshotEntry) : Json :=
  .object [
    ("statement", .string e.statement),
    ("kind", e.kind.toJson double),
    ("occurrence_time", .option (fun t => .nat t.toNat) e.occurrence),
    ("intervals", .array (e.intervals.map fun i => .nat i.toNat))]

end SnapshotEntry

namespace Snapshot

def entries (s : Snapshot) : List SnapshotEntry := s.beliefs ++ s.desires

def toJson (double : Double → Json) (s : Snapshot) : Json :=
  .object [
    ("cycle", .nat s.cycle.toNat),
    ("beliefs", .array (s.beliefs.map (·.toJson double))),
    ("desires", .array (s.desires.map (·.toJson double)))]

end Snapshot

/-! ## What can be wrong with a snapshot

The causes for which bytes are refused as a snapshot, and those for which a snapshot is refused by
a reasoner.
-/

/-- Where the contents of a snapshot stop making sense. -/
inductive PayloadError where
  | endOfBytes
  | badNumber
  | badText
  | badOption
  | badKind
deriving DecidableEq, Repr

def PayloadError.message : PayloadError → String
  | endOfBytes => "Hit the end of buffer, expected more data"
  | badNumber => "Found a varint that didn't terminate. Is the usize too big for this platform?"
  | badText => "Tried to parse invalid utf-8"
  | badOption => "Found an Option discriminant that wasn't 0 or 1"
  | badKind => "Serde Deserialization Error"

/-- Why bytes are refused as a snapshot. -/
inductive SnapshotError where
  /-- There are fewer bytes than the header has. -/
  | tooShort
  /-- There are fewer bytes than a header has, where only a header is read. -/
  | shortHeader
  | tooLarge (bytes : Nat)
  | badMagic
  | badVersion (version : UInt8)
  | badPayload (cause : PayloadError)
deriving DecidableEq, Repr

/-- Why a snapshot is refused by a reasoner. -/
inductive RestoreError where
  | unreadable (cause : SyntaxError)
  | misfit (intervals : List UInt32) (statement : String)
  | notSentential (statement : String)

/-- The wording of a cause other than an unreadable text, whose cause has its own. -/
def RestoreError.message : RestoreError → String
  | unreadable cause => cause.message
  | misfit intervals statement =>
    "interval layout [" ++ ", ".intercalate (intervals.map fun i => toString i.toNat) ++
      "] does not fit '" ++ statement ++ "'"
  | notSentential statement => "'" ++ statement ++ "' cannot head a sentence"

/-! ## Headers of snapshots

The first bytes of a snapshot: four that tell what it is, and one for the version of its format.
-/

structure Header where
  magic : List UInt8
  version : UInt8
deriving DecidableEq, Repr, Inhabited

namespace Header

def size : Nat := 5

/-- The letters `NARS`. -/
def expectedMagic : List UInt8 := [0x4E, 0x41, 0x52, 0x53]

def currentVersion : UInt8 := 1

def current : Header := ⟨expectedMagic, currentVersion⟩

def toBytes (h : Header) : List UInt8 := h.magic ++ [h.version]

def ofBytes (bytes : List UInt8) : Except SnapshotError Header :=
  match bytes with
  | a :: b :: c :: d :: version :: _ => .ok ⟨[a, b, c, d], version⟩
  | _ => .error .shortHeader

def validate (h : Header) : Except SnapshotError Unit :=
  if h.magic != expectedMagic then .error .badMagic
  else if h.version != currentVersion then .error (.badVersion h.version)
  else .ok ()

@[simp] theorem ofBytes_toBytes_current (rest : List UInt8) :
    ofBytes (current.toBytes ++ rest) = .ok current := rfl

end Header

def Snapshot.maxBytes : Nat := 64 * 1024 * 1024

def SnapshotError.message : SnapshotError → String
  | tooShort =>
    "Data too short: minimum " ++ toString Header.size ++ " bytes required"
  | shortHeader => "Header too short"
  | tooLarge bytes =>
    "Data size " ++ toString bytes ++ " bytes exceeds maximum allowed " ++
      toString Snapshot.maxBytes ++ " bytes"
  | badMagic => "Invalid magic bytes"
  | badVersion version =>
    "Unsupported version: " ++ toString version.toNat ++ " (expected " ++
      toString Header.currentVersion.toNat ++ ")"
  | badPayload cause => "Failed to decode snapshot: " ++ cause.message

/-! ## Writing snapshots

A snapshot is written as bytes, without names and without padding. Whole numbers are written seven
bits at a time, the lowest first, with the high bit set in all bytes but the last; a list or a
text after its length; what may be absent after a byte that says so; and a double as its eight
bytes, the lowest first.
-/

namespace Snapshot

namespace Writer

def natIn : (bytes : Nat) → Nat → List UInt8
  | 0, _ => []
  | bytes + 1, n =>
    if n < 0x80 then [n.toUInt8] else (n % 0x80 + 0x80).toUInt8 :: natIn bytes (n / 0x80)

/-- A whole number below `2 ^ 64`. -/
def nat (n : Nat) : List UInt8 := natIn 10 n

def wordBytes : (bytes : Nat) → Nat → List UInt8
  | 0, _ => []
  | bytes + 1, n => n.toUInt8 :: wordBytes bytes (n / 0x100)

def double (x : Double) : List UInt8 := wordBytes 8 x.bits.toNat

def text (s : String) : List UInt8 := nat s.utf8ByteSize ++ s.toUTF8.data.toList

def list {α : Type} (write : α → List UInt8) (xs : List α) : List UInt8 :=
  nat xs.length ++ xs.flatMap write

def option {α : Type} (write : α → List UInt8) : Option α → List UInt8
  | none => [0]
  | some a => 1 :: write a

def value (v : TruthValue Double) : List UInt8 := double v.frequency ++ double v.confidence

def kind : SentenceKind → List UInt8
  | .judgment v => nat 0 ++ value v
  | .question => nat 1
  | .goal v => nat 2 ++ value v

def entry (e : SnapshotEntry) : List UInt8 :=
  text e.statement ++ kind e.kind ++ option (fun t => nat t.toNat) e.occurrence ++
    list (fun i => nat i.toNat) e.intervals

def payload (s : Snapshot) : List UInt8 :=
  nat s.cycle.toNat ++ list entry s.beliefs ++ list entry s.desires

end Writer

/-- A snapshot as bytes: its header and its contents. -/
def toBytes (s : Snapshot) : ByteArray :=
  ⟨(Header.current.toBytes ++ Writer.payload s).toArray⟩

end Snapshot

/-! ## Reading snapshots

Every reader takes a place in the bytes (`Cursor`) and gives what stands there together with the
place behind it. Reading stops at the first problem. Bytes behind the contents are not looked at.
-/

/-- A place in bytes. -/
structure Cursor where
  bytes : ByteArray
  place : Nat

namespace Cursor

def rest (c : Cursor) : List UInt8 := c.bytes.data.toList.drop c.place

def next? (c : Cursor) : Option (UInt8 × Cursor) :=
  if h : c.place < c.bytes.size then some (c.bytes[c.place], { c with place := c.place + 1 })
  else none

/-- The next `n` bytes. -/
def take? (c : Cursor) (n : Nat) : Option (ByteArray × Cursor) :=
  if c.place + n ≤ c.bytes.size then
    some (c.bytes.extract c.place (c.place + n), { c with place := c.place + n })
  else none

theorem rest_next {c c' : Cursor} {b : UInt8} (h : c.next? = some (b, c')) :
    c.rest = b :: c'.rest := by
  simp only [next?] at h
  split at h
  · rename_i hlt
    simp only [Option.some.injEq, Prod.mk.injEq] at h
    obtain ⟨rfl, rfl⟩ := h
    exact List.drop_eq_getElem_cons hlt
  · simp at h

end Cursor

namespace Snapshot

namespace Reader

def byte (c : Cursor) : Except PayloadError (UInt8 × Cursor) :=
  match c.next? with
  | some r => .ok r
  | none => .error .endOfBytes

/-- A whole number in at most so many bytes, of which the last one must not exceed `last`. The bits
read so far are `low`, and the next ones count `unit`. -/
def natIn (last : Nat) : (bytes : Nat) → (unit low : Nat) → Cursor →
    Except PayloadError (Nat × Cursor)
  | 0, _, _, _ => .error .badNumber
  | bytes + 1, unit, low, c => do
    let (b, c) ← byte c
    let n := low + unit * (b.toNat % 0x80)
    if 0x80 ≤ b.toNat then natIn last bytes (unit * 0x80) n c
    else if bytes = 0 ∧ last < b.toNat then .error .badNumber
    else .ok (n, c)

/-- A whole number below `2 ^ 64`. -/
def nat64 (c : Cursor) : Except PayloadError (Nat × Cursor) := natIn 1 10 1 0 c

/-- A whole number below `2 ^ 32`. -/
def nat32 (c : Cursor) : Except PayloadError (Nat × Cursor) := natIn 15 5 1 0 c

def bytes (n : Nat) (c : Cursor) : Except PayloadError (ByteArray × Cursor) :=
  match c.take? n with
  | some r => .ok r
  | none => .error .endOfBytes

def double (c : Cursor) : Except PayloadError (Double × Cursor) := do
  let (b, c) ← bytes 8 c
  let word := b.data.toList.foldr (fun b n => b.toNat + 0x100 * n) 0
  return (⟨word.toUInt64⟩, c)

def text (c : Cursor) : Except PayloadError (String × Cursor) := do
  let (n, c) ← nat64 c
  let (b, c) ← bytes n c
  match String.fromUTF8? b with
  | some s => return (s, c)
  | none => throw .badText

def items {α : Type} (read : Cursor → Except PayloadError (α × Cursor)) :
    (count : Nat) → List α → Cursor → Except PayloadError (List α × Cursor)
  | 0, done, c => .ok (done.reverse, c)
  | count + 1, done, c =>
    match read c with
    | .ok (a, c) => items read count (a :: done) c
    | .error e => .error e

def list {α : Type} (read : Cursor → Except PayloadError (α × Cursor)) (c : Cursor) :
    Except PayloadError (List α × Cursor) := do
  let (count, c) ← nat64 c
  items read count [] c

def option {α : Type} (read : Cursor → Except PayloadError (α × Cursor)) (c : Cursor) :
    Except PayloadError (Option α × Cursor) := do
  let (b, c) ← byte c
  if b = 0 then return (none, c)
  else if b = 1 then
    let (a, c) ← read c
    return (some a, c)
  else throw .badOption

def value (c : Cursor) : Except PayloadError (TruthValue Double × Cursor) := do
  let (frequency, c) ← double c
  let (confidence, c) ← double c
  return (⟨frequency, confidence⟩, c)

def kind (c : Cursor) : Except PayloadError (SentenceKind × Cursor) := do
  let (n, c) ← nat32 c
  if n = 0 then
    let (v, c) ← value c
    return (.judgment v, c)
  else if n = 1 then return (.question, c)
  else if n = 2 then
    let (v, c) ← value c
    return (.goal v, c)
  else throw .badKind

def entry (c : Cursor) : Except PayloadError (SnapshotEntry × Cursor) := do
  let (statement, c) ← text c
  let (kind, c) ← kind c
  let (occurrence, c) ← option nat64 c
  let (intervals, c) ← list nat32 c
  return ({ statement, kind, occurrence := occurrence.map Nat.toUInt64
            intervals := intervals.map Nat.toUInt32 }, c)

def payload (c : Cursor) : Except PayloadError (Snapshot × Cursor) := do
  let (cycle, c) ← nat64 c
  let (beliefs, c) ← list entry c
  let (desires, c) ← list entry c
  return ({ cycle := cycle.toUInt64, beliefs, desires }, c)

end Reader

/-- The snapshot that bytes write. Their number and the header are checked before anything
else. -/
def ofBytes (bytes : ByteArray) : Except SnapshotError Snapshot := do
  if bytes.size < Header.size then throw .tooShort
  if maxBytes < bytes.size then throw (.tooLarge bytes.size)
  let header ← Header.ofBytes (bytes.extract 0 Header.size).data.toList
  header.validate
  match Reader.payload ⟨bytes, Header.size⟩ with
  | .ok (s, _) => return s
  | .error cause => throw (.badPayload cause)

end Snapshot

end NonAxiomatic
