import NonAxiomatic.Double

/-!
# JSON

Values of the JSON format are written and read as text, or passed over without being built.

* `skipFrom_nil`: behind a whole value, with nothing open, the rest of the text is the result.
-/

namespace NonAxiomatic

/-! ## JSON values

Values of the JSON format, their text in one line (`Json.compact`) and with one member a line
(`Json.pretty`). A number keeps the text that it was written with; the members of an object keep
their order.
-/

inductive Json where
  | null
  | bool (b : Bool)
  | number (literal : String)
  | string (s : String)
  | array (items : List Json)
  | object (members : List (String × Json))
deriving Inhabited

namespace Json

def nat (n : Nat) : Json := number (toString n)

def double (x : Double) : Json := if x.isFinite then number (Double.exponential x) else null

def option {α : Type} (f : α → Json) : Option α → Json
  | some a => f a
  | none => null

/-! ### Text -/

def hexDigit (n : Nat) : Char := ("0123456789abcdef".toList)[n]?.getD '0'

def escape (c : Char) : List Char :=
  if c == '"' then ['\\', '"']
  else if c == '\\' then ['\\', '\\']
  else if c == '\n' then ['\\', 'n']
  else if c == '\r' then ['\\', 'r']
  else if c == '\t' then ['\\', 't']
  else if c.toNat == 0x8 then ['\\', 'b']
  else if c.toNat == 0xC then ['\\', 'f']
  else if c.toNat < 0x20 then
    ['\\', 'u', '0', '0', hexDigit (c.toNat / 16), hexDigit (c.toNat % 16)]
  else [c]

def quote (s : String) : String :=
  String.ofList ('"' :: s.toList.flatMap escape ++ ['"'])

mutual

def compact : Json → String
  | null => "null"
  | bool b => if b then "true" else "false"
  | number literal => literal
  | string s => quote s
  | array items => "[" ++ ",".intercalate (compactAll items) ++ "]"
  | object members => "\x7b" ++ ",".intercalate (compactMembers members) ++ "\x7d"

def compactAll : List Json → List String
  | [] => []
  | v :: vs => compact v :: compactAll vs

def compactMembers : List (String × Json) → List String
  | [] => []
  | (name, v) :: ms => (quote name ++ ":" ++ compact v) :: compactMembers ms

end

def newline (level : Nat) : String := String.ofList ('\n' :: List.replicate (2 * level) ' ')

def block (opening closing : String) (level : Nat) (items : List String) : String :=
  if items.isEmpty then opening ++ closing
  else opening ++ newline (level + 1) ++ ("," ++ newline (level + 1)).intercalate items ++
    newline level ++ closing

mutual

def prettyAt (level : Nat) : Json → String
  | array items => block "[" "]" level (prettyAll (level + 1) items)
  | object members => block "\x7b" "\x7d" level (prettyMembers (level + 1) members)
  | v => compact v

def prettyAll (level : Nat) : List Json → List String
  | [] => []
  | v :: vs => prettyAt level v :: prettyAll level vs

def prettyMembers (level : Nat) : List (String × Json) → List String
  | [] => []
  | (name, v) :: ms => (quote name ++ ": " ++ prettyAt level v) :: prettyMembers level ms

end

def pretty (v : Json) : String := prettyAt 0 v

/-! ### Parts -/

/-- The member of an object with a name; the last one when there are several. -/
def get? (v : Json) (name : String) : Option Json :=
  match v with
  | object members => (members.reverse.find? fun m => m.1 == name).map (·.2)
  | _ => none

def isNatural (literal : String) : Bool := Text.isDigits literal.toList

/-- The whole number below `bound` that a value is. -/
def natBelow? (bound : Nat) : Json → Option Nat
  | number literal => if isNatural literal then Text.word? bound literal.toList else none
  | _ => none

def double? : Json → Option Double
  | number literal => Double.read? literal.toList
  | _ => none

def items? : Json → Option (List Json)
  | array items => some items
  | _ => none

def text? : Json → Option String
  | string s => some s
  | _ => none

def bool? : Json → Option Bool
  | bool b => some b
  | _ => none

def option? {α : Type} (f : Json → Option α) : Json → Option (Option α)
  | null => some none
  | v => (f v).map some

/-! ## Reading JSON

Every reader takes characters and gives what it read together with the characters after it;
`none` means that the text is no JSON. Strings hold no control characters, and half of a
surrogate pair is refused unless the string is only skipped.
-/

def skipBlank (text : List Char) : List Char :=
  text.dropWhile fun c => c == ' ' || c == '\n' || c == '\t' || c == '\r'

/-! ### Strings -/

def hexValue? (c : Char) : Option Nat :=
  if c.isDigit then some (c.toNat - '0'.toNat)
  else if 'a' ≤ c ∧ c ≤ 'f' then some (c.toNat - 'a'.toNat + 10)
  else if 'A' ≤ c ∧ c ≤ 'F' then some (c.toNat - 'A'.toNat + 10)
  else none

def unit? (a b c d : Char) : Option Nat := do
  let a ← hexValue? a
  let b ← hexValue? b
  let c ← hexValue? c
  let d ← hexValue? d
  return ((a * 16 + b) * 16 + c) * 16 + d

def isLeading (unit : Nat) : Bool := 0xD800 ≤ unit && unit < 0xDC00

def isTrailing (unit : Nat) : Bool := 0xDC00 ≤ unit && unit < 0xE000

def pairChar (first second : Nat) : Char :=
  Char.ofNat (0x10000 + (first - 0xD800) * 0x400 + (second - 0xDC00))

def replacement : Char := Char.ofNat 0xFFFD

def escaped? (c : Char) : Option Char :=
  if c == '"' || c == '\\' || c == '/' then some c
  else if c == 'n' then some '\n'
  else if c == 't' then some '\t'
  else if c == 'r' then some '\r'
  else if c == 'b' then some (Char.ofNat 0x8)
  else if c == 'f' then some (Char.ofNat 0xC)
  else none

/-- Add a unit to the characters that have been read, which stand in reverse. The first half of a
surrogate pair waits for the second one; a half that stands alone is refused or replaced. -/
def addUnit? (strict : Bool) (half : Option Nat) (read : List Char) (unit : Nat) :
    Option (Option Nat × List Char) :=
  let add := fun (read : List Char) =>
    if isLeading unit then some (some unit, read)
    else if isTrailing unit then if strict then none else some (none, replacement :: read)
    else some (none, Char.ofNat unit :: read)
  match half with
  | none => add read
  | some first =>
    if isTrailing unit then some (none, pairChar first unit :: read)
    else if strict then none
    else add (replacement :: read)

def settle? (strict : Bool) (half : Option Nat) (read : List Char) : Option (List Char) :=
  match half with
  | none => some read
  | some _ => if strict then none else some (replacement :: read)

def stringFrom (strict : Bool) (half : Option Nat) (read : List Char) :
    List Char → Option (String × List Char)
  | [] => none
  | '\\' :: 'u' :: a :: b :: c :: d :: rest =>
    match (unit? a b c d).bind (addUnit? strict half read) with
    | some (half, read) => stringFrom strict half read rest
    | none => none
  | '\\' :: c :: rest =>
    match escaped? c, settle? strict half read with
    | some d, some read => stringFrom strict none (d :: read) rest
    | _, _ => none
  | c :: rest =>
    match settle? strict half read with
    | none => none
    | some read =>
      if c == '"' then some (String.ofList read.reverse, rest)
      else if c.toNat < 0x20 then none
      else stringFrom strict none (c :: read) rest

def string? (strict : Bool) (text : List Char) : Option (String × List Char) :=
  stringFrom strict none [] text

/-! ### Numbers and words -/

def digits? (text : List Char) : Option (List Char × List Char) :=
  let digits := text.takeWhile Char.isDigit
  if digits.isEmpty then none else some (digits, text.dropWhile Char.isDigit)

/-- A number: a whole part without leading zeros, then an optional fraction and exponent. -/
def number? (text : List Char) : Option (String × List Char) := do
  let (sign, text) := match text with
    | '-' :: rest => (['-'], rest)
    | _ => ([], text)
  let (whole, text) ← digits? text
  if whole.head? = some '0' && 1 < whole.length then none
  let (fraction, text) ← match text with
    | '.' :: rest => (digits? rest).map fun (d, rest) => ('.' :: d, rest)
    | _ => some ([], text)
  let (exponent, text) ← match text with
    | c :: rest =>
      if c == 'e' || c == 'E' then
        match rest with
        | '+' :: rest => (digits? rest).map fun (d, rest) => (c :: '+' :: d, rest)
        | '-' :: rest => (digits? rest).map fun (d, rest) => (c :: '-' :: d, rest)
        | _ => (digits? rest).map fun (d, rest) => (c :: d, rest)
      else some ([], text)
    | [] => some ([], text)
  return (String.ofList (sign ++ whole ++ fraction ++ exponent), text)

def word? (word : String) (text : List Char) : Option (List Char) :=
  if word.toList.isPrefixOf text then some (text.drop word.length) else none

/-! ### Values -/

mutual

/-- A value at the start of a text. Each round reads at least one character. -/
def valueAt : (rounds : Nat) → List Char → Option (Json × List Char)
  | 0, _ => none
  | rounds + 1, text =>
    match skipBlank text with
    | '[' :: rest =>
      match skipBlank rest with
      | ']' :: rest => some (array [], rest)
      | rest => (itemsAt rounds rest).map fun (items, rest) => (array items, rest)
    | '{' :: rest =>
      match skipBlank rest with
      | '}' :: rest => some (object [], rest)
      | rest => (membersAt rounds rest).map fun (members, rest) => (object members, rest)
    | '"' :: rest => (string? true rest).map fun (s, rest) => (string s, rest)
    | 't' :: rest => (word? "rue" rest).map fun rest => (bool true, rest)
    | 'f' :: rest => (word? "alse" rest).map fun rest => (bool false, rest)
    | 'n' :: rest => (word? "ull" rest).map fun rest => (null, rest)
    | rest => (number? rest).map fun (literal, rest) => (number literal, rest)

def itemsAt : (rounds : Nat) → List Char → Option (List Json × List Char)
  | 0, _ => none
  | rounds + 1, text => do
    let (v, rest) ← valueAt rounds text
    match skipBlank rest with
    | ',' :: rest =>
      let (vs, rest) ← itemsAt rounds rest
      return (v :: vs, rest)
    | ']' :: rest => return ([v], rest)
    | _ => none

def membersAt : (rounds : Nat) → List Char → Option (List (String × Json) × List Char)
  | 0, _ => none
  | rounds + 1, text => do
    match skipBlank text with
    | '"' :: rest =>
      let (name, rest) ← string? true rest
      match skipBlank rest with
      | ':' :: rest =>
        let (v, rest) ← valueAt rounds rest
        match skipBlank rest with
        | ',' :: rest =>
          let (ms, rest) ← membersAt rounds rest
          return ((name, v) :: ms, rest)
        | '}' :: rest => return ([(name, v)], rest)
        | _ => none
      | _ => none
    | _ => none

end

def value? (text : List Char) : Option (Json × List Char) := valueAt (text.length + 1) text

def parse? (text : String) : Option Json :=
  match value? text.toList with
  | some (v, rest) => if (skipBlank rest).isEmpty then some v else none
  | none => none

/-! ## Passing over JSON

A value that nobody asks for is passed over without being built. What is open around a place is
kept in a list, so that values may be nested as deeply as the text goes. Halves of surrogate pairs
are not refused here.
-/

inductive Enclosure where
  | array
  | object
deriving DecidableEq, Repr

inductive SkipPoint where
  | before
  | behind
deriving DecidableEq, Repr

def skipScalar? (text : List Char) : Option (List Char) :=
  match text with
  | '"' :: rest => (string? false rest).map (·.2)
  | 't' :: rest => word? "rue" rest
  | 'f' :: rest => word? "alse" rest
  | 'n' :: rest => word? "ull" rest
  | _ => (number? text).map (·.2)

def skipName? (text : List Char) : Option (List Char) :=
  match skipBlank text with
  | '"' :: rest =>
    match string? false rest with
    | some (_, rest) =>
      match skipBlank rest with
      | ':' :: rest => some rest
      | _ => none
    | none => none
  | _ => none

def skipOpening? (kind : Enclosure) (around : List Enclosure) (text : List Char) :
    Option (SkipPoint × List Enclosure × List Char) :=
  match kind, skipBlank text with
  | .array, ']' :: rest | .object, '}' :: rest => some (.behind, around, rest)
  | .array, rest => some (.before, .array :: around, rest)
  | .object, rest => (skipName? rest).map fun rest => (.before, .object :: around, rest)

def skipSeparator? (kind : Enclosure) (around : List Enclosure) (text : List Char) :
    Option (SkipPoint × List Enclosure × List Char) :=
  match kind, skipBlank text with
  | .array, ',' :: rest => some (.before, .array :: around, rest)
  | .object, ',' :: rest => (skipName? rest).map fun rest => (.before, .object :: around, rest)
  | .array, ']' :: rest | .object, '}' :: rest => some (.behind, around, rest)
  | _, _ => none

def skipValue? (around : List Enclosure) (text : List Char) :
    Option (SkipPoint × List Enclosure × List Char) :=
  match skipBlank text with
  | '[' :: rest => skipOpening? .array around rest
  | '{' :: rest => skipOpening? .object around rest
  | rest => (skipScalar? rest).map fun rest => (.behind, around, rest)

/-- Pass over what is left of a value. Each round reads at least one character. -/
def skipFrom : (rounds : Nat) → SkipPoint → (around : List Enclosure) → List Char →
    Option (List Char)
  | _, .behind, [], text => some text
  | 0, _, _, _ => none
  | rounds + 1, .before, around, text =>
    match skipValue? around text with
    | some (point, around, rest) => skipFrom rounds point around rest
    | none => none
  | rounds + 1, .behind, kind :: around, text =>
    match skipSeparator? kind around text with
    | some (point, around, rest) => skipFrom rounds point around rest
    | none => none

@[simp] theorem skipFrom_nil (rounds : Nat) (text : List Char) :
    skipFrom rounds .behind [] text = some text := by
  cases rounds <;> rfl

end Json

end NonAxiomatic
