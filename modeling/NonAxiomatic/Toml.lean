import NonAxiomatic.Json
import NonAxiomatic.Settings
import Std.Data.HashMap

/-!
# TOML

Settings are kept as a TOML document. Of its values, numbers and truth values are told apart; all
others are only read to get past them.
-/

namespace NonAxiomatic

/-! ## Dates and times in TOML

A date, a time of day, or both with what may say how far the time is from the one at the prime
meridian. The seconds may be left out, and the sixtieth second is one.
-/

namespace Toml

def twoDigits? : List Char → Option (Nat × List Char)
  | a :: b :: rest =>
    if a.isDigit && b.isDigit then some (Text.natOfDigits [a, b], rest) else none
  | _ => none

def upTo? (greatest : Nat) (text : List Char) : Option (List Char) :=
  match twoDigits? text with
  | some (n, rest) => if n ≤ greatest then some rest else none
  | none => none

def isLeap (year : Nat) : Bool := year % 4 = 0 && (year % 100 != 0 || year % 400 = 0)

def daysIn (year month : Nat) : Nat :=
  if month = 2 then if isLeap year then 29 else 28
  else if [4, 6, 9, 11].contains month then 30
  else 31

def expect? (c : Char) : List Char → Option (List Char)
  | d :: rest => if d == c then some rest else none
  | [] => none

def date? (text : List Char) : Option (List Char) := do
  let (century, rest) ← twoDigits? text
  let (year, rest) ← twoDigits? rest
  let (month, rest) ← twoDigits? (← expect? '-' rest)
  let (day, rest) ← twoDigits? (← expect? '-' rest)
  if 1 ≤ month ∧ month ≤ 12 ∧ 1 ≤ day ∧ day ≤ daysIn (100 * century + year) month then rest
  else none

/-- What follows the seconds of a time, if it has seconds; they can have a fraction. -/
def seconds? (text : List Char) : Option (List Char) :=
  match text with
  | ':' :: rest =>
    match upTo? 60 rest with
    | some ('.' :: rest) =>
      if (rest.head?).any Char.isDigit then some (rest.dropWhile Char.isDigit) else none
    | other => other
  | _ => some text

def time? (text : List Char) : Option (List Char) := do
  seconds? (← upTo? 59 (← expect? ':' (← upTo? 23 text)))

def distance? (text : List Char) : Option (List Char) :=
  match text with
  | 'Z' :: rest | 'z' :: rest => some rest
  | '+' :: rest | '-' :: rest => do upTo? 59 (← expect? ':' (← upTo? 23 rest))
  | _ => some text

def isMoment (text : List Char) : Bool :=
  match date? text with
  | none => time? text == some []
  | some [] => true
  | some (c :: rest) =>
    (c == 'T' || c == 't' || c == ' ') && (time? rest).bind distance? == some []

/-! ## Values and names in TOML

Readers for the right and the left side of an assignment. They take characters and give what they
read together with the characters after it; `none` means that the text is no TOML. Numbers and
truth values are told apart; all other values are read only to get past them.

Readers that go on for long are given a number of rounds, each of which gets past one character at
least, so that as many as there are characters are enough.
-/

def skipSpace (text : List Char) : List Char := text.dropWhile fun c => c == ' ' || c == '\t'

def isPlain (c : Char) : Bool := (0x20 ≤ c.toNat && c.toNat != 0x7F) || c == '\t'

/-- Skip a comment, if there is one. A comment holds no control characters. -/
def skipComment : List Char → Option (List Char)
  | '#' :: rest =>
    match rest.dropWhile isPlain with
    | [] => some []
    | '\n' :: more => some ('\n' :: more)
    | '\r' :: '\n' :: more => some ('\n' :: more)
    | _ => none
  | text => some text

/-! ### Strings -/

def escaped? : List Char → Option (Char × List Char)
  | 'b' :: rest => some (Char.ofNat 0x8, rest)
  | 't' :: rest => some ('\t', rest)
  | 'n' :: rest => some ('\n', rest)
  | 'f' :: rest => some (Char.ofNat 0xC, rest)
  | 'r' :: rest => some ('\r', rest)
  | 'e' :: rest => some (Char.ofNat 0x1B, rest)
  | '"' :: rest => some ('"', rest)
  | '\\' :: rest => some ('\\', rest)
  | c :: rest =>
    let count := if c == 'x' then 2 else if c == 'u' then 4 else if c == 'U' then 8 else 0
    let digits := rest.take count
    if digits.isEmpty || digits.length < count then none
    else do
      let n ← digits.foldlM (fun n d => (Json.hexValue? d).map (16 * n + ·)) 0
      if n.isValidChar then some (Char.ofNat n, rest.drop count) else none
  | [] => none

/-- The characters of a string up to its closing quote, in reverse and in front of `read`. -/
def stringFrom : (rounds : Nat) → (read : List Char) → List Char → Option (String × List Char)
  | 0, _, _ => none
  | _ + 1, _, [] => none
  | rounds + 1, read, c :: rest =>
    if c == '"' then some (String.ofList read.reverse, rest)
    else if c == '\\' then
      match escaped? rest with
      | some (d, rest) => stringFrom rounds (d :: read) rest
      | none => none
    else if isPlain c then stringFrom rounds (c :: read) rest
    else none

def apostrophe : Char := Char.ofNat 0x27

def string? (rounds : Nat) : List Char → Option (String × List Char)
  | [] => none
  | c :: rest =>
    if c == '"' then stringFrom rounds [] rest
    else if c == apostrophe then
      let isInside := fun d => isPlain d && d != apostrophe
      match rest.dropWhile isInside with
      | d :: more =>
        if d == apostrophe then some (String.ofList (rest.takeWhile isInside), more) else none
      | [] => none
    else none

def newline? : List Char → Option (List Char)
  | '\n' :: rest | '\r' :: '\n' :: rest => some rest
  | _ => none

/-- What follows an escape in a string of several lines, read on from the backslash. It can stand
for a character, or for the end of its line. -/
def foldedEscape? (text : List Char) : Option (List Char) :=
  newline? (skipSpace text) <|> (escaped? text).map (·.2)

def triple (mark : Char) : List Char := List.replicate 3 mark

def skipMarks (mark : Char) : (count : Nat) → List Char → List Char
  | count + 1, c :: rest => if c == mark then skipMarks mark count rest else c :: rest
  | _, text => text

/-- What follows a string of several lines, read on from inside of it. Up to two marks may stand
in front of the three that close it. -/
def linesFrom (mark : Char) : (rounds : Nat) → List Char → Option (List Char)
  | 0, _ => none
  | rounds + 1, text =>
    if (triple mark).isPrefixOf text then some (skipMarks mark 2 (text.drop 3))
    else match text with
      | [] => none
      | c :: rest =>
        let next := if c == '\\' && mark == '"' then foldedEscape? rest
          else if isPlain c then some rest
          else newline? text
        match next with
        | some rest => linesFrom mark rounds rest
        | none => none

def anyString? (rounds : Nat) (text : List Char) : Option (List Char) :=
  if (triple '"').isPrefixOf text then linesFrom '"' rounds (text.drop 3)
  else if (triple apostrophe).isPrefixOf text then linesFrom apostrophe rounds (text.drop 3)
  else (string? rounds text).map (·.2)

/-! ### Names -/

def isBare (c : Char) : Bool := c.isAlphanum || c == '_' || c == '-'

def name? (rounds : Nat) (text : List Char) : Option (String × List Char) :=
  let bare := text.takeWhile isBare
  if bare.isEmpty then string? rounds text else some (String.ofList bare, text.dropWhile isBare)

def path? : (rounds : Nat) → List Char → Option (List String × List Char)
  | 0, _ => none
  | rounds + 1, text => do
    let (name, rest) ← name? rounds (skipSpace text)
    match skipSpace rest with
    | '.' :: rest =>
      let (names, rest) ← path? rounds rest
      return (name :: names, rest)
    | rest => return ([name], rest)

/-! ### Numbers -/

def digits? (isDigit : Char → Bool) (text : List Char) : Option (List Char) :=
  let groups := Text.split '_' text
  if groups.all fun g => !g.isEmpty && g.all isDigit then some groups.flatten else none

def whole? (text : List Char) : Option (List Char) :=
  (digits? Char.isDigit text).filter fun ds => ds.length = 1 || ds.head? != some '0'

def inBase (base : Nat) (digits : List Char) : Nat :=
  digits.foldl (fun n d => base * n + (Json.hexValue? d).getD 0) 0

def based? (base : Nat) (text : List Char) : Option Nat :=
  (digits? (fun c => (Json.hexValue? c).any (· < base)) text).map (inBase base)

def sign : List Char → List Char × List Char
  | '+' :: rest => (['+'], rest)
  | '-' :: rest => (['-'], rest)
  | text => ([], text)

def integer? (text : List Char) : Option Int :=
  match text with
  | '0' :: 'x' :: rest => (based? 16 rest).map Int.ofNat
  | '0' :: 'o' :: rest => (based? 8 rest).map Int.ofNat
  | '0' :: 'b' :: rest => (based? 2 rest).map Int.ofNat
  | _ =>
    let (sign, rest) := sign text
    (whole? rest).map fun ds => if sign = ['-'] then -(inBase 10 ds : Int) else inBase 10 ds

def exponent? (text : List Char) : Option (List Char) :=
  if text.isEmpty then some []
  else
    let (sign, rest) := sign text.tail
    (digits? Char.isDigit rest).map fun ds => 'e' :: sign ++ ds

def real? (text : List Char) : Option Double :=
  let (sign, rest) := sign text
  if rest = "inf".toList || rest = "nan".toList then Double.read? (sign ++ rest)
  else do
    let isMark := fun c => c == 'e' || c == 'E'
    let exponent ← exponent? (rest.dropWhile fun c => !isMark c)
    let fraction ← match Text.cutFirst? '.' (rest.takeWhile fun c => !isMark c) with
      | some (whole, part) =>
        (whole? whole).bind fun w => (digits? Char.isDigit part).map fun p => w ++ '.' :: p
      | none => whole? (rest.takeWhile fun c => !isMark c)
    (Double.read? (sign ++ fraction ++ exponent)).filter Double.isFinite

/-! ### Values -/

def wholeRange : Int × Int :=
  (-0x80000000000000000000000000000000, 0xFFFFFFFFFFFFFFFFFFFFFFFFFFFFFFFF)

/-- A whole number as a value. One that is too great for a word is neither a number nor a double. -/
def wholeValue? (n : Int) : Option Scalar :=
  if n < wholeRange.1 ∨ wholeRange.2 < n then none
  else if -0x8000000000000000 ≤ n ∧ n < UInt64.size then some (.integer n)
  else some .other

def word? (text : List Char) : Option Scalar :=
  if text = "true".toList then some (.flag true)
  else if text = "false".toList then some (.flag false)
  else if isMoment text then some .other
  else match integer? text with
    | some n => wholeValue? n
    | none => (real? text).map .real

def isWordChar (c : Char) : Bool :=
  c.isAlphanum || c == '_' || c == '-' || c == '+' || c == '.' || c == ':'

/-- A word and what follows it. A blank may stand between a date and a time. -/
def splitWord (text : List Char) : List Char × List Char :=
  let word := text.takeWhile isWordChar
  match text.dropWhile isWordChar with
  | ' ' :: rest =>
    if date? word == some [] && (rest.head?).any Char.isDigit then
      (word ++ ' ' :: rest.takeWhile isWordChar, rest.dropWhile isWordChar)
    else (word, ' ' :: rest)
  | rest => (word, rest)

/-- Skip blanks, newlines and comments. Each round gets past one line. -/
def skipLines : (rounds : Nat) → List Char → Option (List Char)
  | 0, _ => none
  | rounds + 1, text => do
    let text ← skipComment (skipSpace text)
    match newline? text with
    | some rest => skipLines rounds rest
    | none => return text

def maxDepth : Nat := 80

mutual

def value? : (rounds depth : Nat) → List Char → Option (Scalar × List Char)
  | 0, _, _ => none
  | rounds + 1, depth, text =>
    match text with
    | '[' :: rest => do return (.other, ← items? rounds (depth + 1) (← skipLines rounds rest))
    | '{' :: rest => do return (.other, ← members? rounds (depth + 1) [] (← skipLines rounds rest))
    | c :: _ =>
      if c == '"' || c == apostrophe then (anyString? rounds text).map fun rest => (.other, rest)
      else
        let (word, rest) := splitWord text
        (word? word).map fun v => (v, rest)
    | [] => none

def items? : (rounds depth : Nat) → List Char → Option (List Char)
  | 0, _, _ => none
  | rounds + 1, depth, text =>
    if maxDepth < depth then none
    else match text with
      | ']' :: rest => some rest
      | _ => do
        let (_, rest) ← value? rounds depth text
        match ← skipLines rounds rest with
        | ',' :: rest => items? rounds depth (← skipLines rounds rest)
        | ']' :: rest => return rest
        | _ => none

/-- Skip the members of a table in one value, up to its closing brace. No name may be given
twice, nor may it be both that of a value and that of a table. -/
def members? : (rounds depth : Nat) → (known : List (List String)) → List Char →
    Option (List Char)
  | 0, _, _, _ => none
  | rounds + 1, depth, known, text =>
    if maxDepth < depth then none
    else match text with
      | '}' :: rest => some rest
      | _ => do
        let (path, rest) ← path? rounds text
        if known.any fun p => p.isPrefixOf path || path.isPrefixOf p then none
        match rest with
        | '=' :: rest =>
          let (_, rest) ← value? rounds depth (skipSpace rest)
          match ← skipLines rounds rest with
          | ',' :: rest => members? rounds depth (path :: known) (← skipLines rounds rest)
          | '}' :: rest => return rest
          | _ => none
        | _ => none

end

/-! ## TOML documents

A document is read as a list of entries, one a line (`Toml.entries?`): assignments, and the heads
of tables, to which the assignments after them belong. `Toml.Names` keeps track of the names that
are taken, so that none is given twice. What counts in the end are the values outside of all tables
(`Toml.document?`); a table is a value there too, of no kind that could be used.
-/

inductive Entry where
  | assign (path : List String) (value : Scalar)
  /-- A table begins; a further one of its name if there may be many. -/
  | head (path : List String) (many : Bool)

def head? (rounds : Nat) (text : List Char) : Option (Entry × List Char) := do
  match text with
  | '[' :: text =>
    let (path, rest) ← path? rounds text
    match rest with
    | ']' :: ']' :: rest => return (.head path true, rest)
    | _ => none
  | _ =>
    let (path, rest) ← path? rounds text
    match rest with
    | ']' :: rest => return (.head path false, rest)
    | _ => none

def assignment? (rounds : Nat) (text : List Char) : Option (Entry × List Char) := do
  let (path, rest) ← path? rounds text
  match rest with
  | '=' :: rest =>
    let (value, rest) ← value? rounds 0 (skipSpace rest)
    return (.assign path value, rest)
  | _ => none

/-- What follows an entry: at most a comment, and then a new line or nothing. -/
def endOfLine? (text : List Char) : Option (List Char) := do
  let rest ← skipComment (skipSpace text)
  if rest.isEmpty then return [] else newline? rest

def entriesFrom : (rounds : Nat) → (done : List Entry) → List Char → Option (List Entry)
  | 0, _, _ => none
  | rounds + 1, done, text => do
    match ← skipLines (rounds + 1) text with
    | [] => return done.reverse
    | '[' :: rest =>
      let (entry, rest) ← head? (rounds + 1) rest
      entriesFrom rounds (entry :: done) (← endOfLine? rest)
    | rest =>
      let (entry, rest) ← assignment? (rounds + 1) rest
      entriesFrom rounds (entry :: done) (← endOfLine? rest)

/-- The entries of a document. A byte order mark in front of it is passed over. -/
def entries? (text : List Char) : Option (List Entry) :=
  let text := if text.head? = some (Char.ofNat 0xFEFF) then text.tail else text
  entriesFrom (text.length + 1) [] text

/-! ### Names -/

/-- A place in a document: names from outside to inside, each with the number of the table meant
where there are many of the name. -/
abbrev Place := List (String × Nat)

inductive Role where
  | value
  | headed
  /-- A table that holds one with a head, and may still get its own. -/
  | implied
  /-- A table that is only named in assignments. -/
  | dotted
  | many (count : Nat)

structure Names where
  roles : Std.HashMap Place Role := {}
  table : Place := []

namespace Names

def role? (n : Names) (place : Place) : Option Role := n.roles[place]?

def take (n : Names) (place : Place) (role : Role) : Names :=
  { n with roles := n.roles.insert place role }

def assign? (n : Names) (place : Place) : List String → Option Names
  | [] => none
  | [name] =>
    let place := place ++ [(name, 0)]
    match n.role? place with
    | none => some (n.take place .value)
    | some _ => none
  | name :: names =>
    let place := place ++ [(name, 0)]
    match n.role? place with
    | none => (n.take place .dotted).assign? place names
    | some .dotted => n.assign? place names
    | some _ => none

def begin? (n : Names) (many : Bool) (place : Place) : List String → Option Names
  | [] => none
  | [name] =>
    let full := place ++ [(name, 0)]
    match many, n.role? full with
    | false, none | false, some .implied => some { n.take full .headed with table := full }
    | true, none => some { n.take full (.many 1) with table := place ++ [(name, 1)] }
    | true, some (.many count) =>
      some { n.take full (.many (count + 1)) with table := place ++ [(name, count + 1)] }
    | _, _ => none
  | name :: names =>
    let full := place ++ [(name, 0)]
    match n.role? full with
    | none => (n.take full .implied).begin? many full names
    | some .value => none
    | some (.many count) => n.begin? many (place ++ [(name, count)]) names
    | some _ => n.begin? many full names

def enter? (n : Names) : Entry → Option Names
  | .assign path _ => n.assign? n.table path
  | .head path many => n.begin? many [] path

end Names

/-! ### Values outside of tables -/

def outerValue (inTable : Bool) : Entry → Option (String × Scalar)
  | .assign [name] value => if inTable then none else some (name, value)
  | .assign (name :: _) _ => if inTable then none else some (name, .other)
  | .head (name :: _) _ => some (name, .other)
  | .assign [] _ | .head [] _ => none

def outerValues? (names : Names) (found : List (String × Scalar)) :
    List Entry → Option (List (String × Scalar))
  | [] => some found.reverse
  | entry :: entries =>
    let found := (outerValue (!names.table.isEmpty) entry).toList ++ found
    match names.enter? entry with
    | some names => outerValues? names found entries
    | none => none

def document? (text : String) : Option (List (String × Scalar)) := do
  outerValues? {} [] (← entries? text.toList)

end Toml

/-! ## The text of settings

Settings are written one a line, in the order of `Settings.fields`, as TOML. They are read from
any TOML document: names that are no settings' are passed over, and settings that are not given keep
their defaults.
-/

def Slot.text? (s : Settings) : Slot → Option String
  | .real get _ => some (Double.pointed (get s))
  | .count get _ => some (toString (get s))
  | .flag get _ => some (if get s then "true" else "false")
  | .seed get _ => (get s).map fun n => toString n.toNat

namespace Settings

def ofText (text : String) : Except SettingsError Settings :=
  match (Toml.document? text).bind (assignAll? {}) with
  | some s => .ok s
  | none => .error .unreadable

def text (s : Settings) : String :=
  String.join (fields.filterMap fun (name, slot) =>
    (slot.text? s).map fun value => name ++ " = " ++ value ++ "\n")

end Settings

end NonAxiomatic
