import NonAxiomatic.Engine.Parts
import NonAxiomatic.Memory
import NonAxiomatic.Snapshot

/-!
# Messages of the service

What goes between the service and those who use it: requests, with bodies of some media type, and
what is answered to them.
-/

namespace NonAxiomatic

/-! ## Requests and responses

What the service is asked (`Request`), what it has to say (`Reply`), and how it says so
(`Response`).
-/

structure Request where
  method : String
  /-- With what: a path, which may have a scheme and a host before it and a query or the name of
  a part after it. -/
  target : String
  headers : List (String × String) := []
  body : String := ""
deriving Repr, Inhabited

namespace Request

def endsPath (c : Char) : Bool := c == '?' || c == '#'

def afterHost (target : List Char) : List Char :=
  if target.head? = some '/' then target
  else match Text.cutWord? "://".toList target with
    | some (_, rest) => rest.dropWhile fun c => c != '/' && !endsPath c
    | none => target

/-- The path of the target. After a host it may be left out. -/
def path (r : Request) : String :=
  match (afterHost r.target.toList).takeWhile fun c => !endsPath c with
  | [] => "/"
  | path => String.ofList path

/-- The value of the first header of a name, which is given in small letters. -/
def header? (r : Request) (name : String) : Option String :=
  (r.headers.find? fun h => h.1.toLower == name).map (·.2)

def wantsHead (r : Request) : Bool := r.method == "HEAD"

end Request

/-! ### Replies -/

inductive Reply where
  | health
  | status (cycle : Cycle) (concepts buffered pending : Nat)
  | input (result : Except String (List SentenceId))
  | step (cycle : Cycle) (error : Option String)
  | outputs (shown : List Output)
  | concept (result : Except String (Option (Concept × Cycle)))
  | snapshot (s : Snapshot)

namespace Reply

def version : String := "0.4.0"

/-- A sentence as it is seen from a cycle. -/
def sentenceJson (double : Double → Json) (cycle : Cycle) (s : Sentence) : Json :=
  .object [("sentence", .string (s.renderAt cycle)),
    ("frequency", .option (fun v => double (TruthValue.frequency v)) s.value?),
    ("confidence", .option (fun v => double (TruthValue.confidence v)) s.value?),
    ("occurrence_time", .option (fun t => .nat (UInt64.toNat t)) s.occurrence)]

/-- A concept as it is seen from a cycle. -/
def conceptJson (double : Double → Json) (found : Option (Concept × Cycle))
    (error : Option String) : Json :=
  let sentences := fun (select : Concept → Table) => Json.array <| match found with
    | some (c, cycle) => (select c).entries.map (sentenceJson double cycle)
    | none => []
  .object [("success", .bool error.isNone), ("found", .bool found.isSome),
    ("term", .option (fun f => .string (Concept.term f.1).text) found),
    ("beliefs", sentences Concept.beliefs), ("desires", sentences Concept.desires),
    ("error", .option .string error)]

def toJson (double : Double → Json) : Reply → Json
  | health => .object [("status", .string "ok"), ("version", .string version)]
  | status cycle concepts buffered pending =>
    .object [("cycle", .nat cycle.toNat), ("concepts", .nat concepts),
      ("buffered", .nat buffered), ("pending_operations", .nat pending)]
  | input (.ok ids) =>
    .object [("success", .bool true), ("accepted", .nat ids.length),
      ("ids", .array (ids.map fun id => .nat id.number.toNat)), ("error", .null)]
  | input (.error message) =>
    .object [("success", .bool false), ("accepted", .nat 0), ("ids", .array []),
      ("error", .string message)]
  | step cycle error =>
    .object [("success", .bool error.isNone), ("cycle", .nat cycle.toNat),
      ("error", .option .string error)]
  | outputs shown => .object [("events", .array (shown.map (·.toJson double)))]
  | concept (.ok found) => conceptJson double found none
  | concept (.error message) => conceptJson double none (some message)
  | snapshot s => s.toJson double

end Reply

/-! ### Responses -/

inductive Content where
  | nothing
  | text (s : String)
  /-- A reply, which is left out where only the head is wanted. -/
  | json (reply : Option Reply)

/-- How the service answers a request. -/
structure Response where
  status : Nat
  content : Content := .nothing
  allowOrigin : Option String := none

/-- No response at all, which has no status either. -/
def Response.unanswered : Response := { status := 0 }

/-- The response without what is left out where only the head is wanted. -/
def Response.head (r : Response) : Response :=
  { r with content := match r.content with
      | .nothing => .nothing
      | .text _ => .text ""
      | .json _ => .json none }

/-! ## Media types

What the body of a request is said to be: a type and a subtype, which may have a suffix, and
parameters. Parameters are read only to see whether they can be.
-/

structure MediaType where
  main : List Char
  /-- What comes after it, up to the last plus sign. -/
  sub : List Char
  /-- What comes after the last plus sign. -/
  suffix : Option (List Char)
deriving DecidableEq, Repr

namespace MediaType

def isNameChar (c : Char) : Bool := c.isAlphanum || "!#$%&*+-.^_|~".contains c ||
  c.toNat == 0x27 || c.toNat == 0x60

/-- Skip the value of a parameter, up to the next semicolon. The first character between quotes may
be a quote itself. -/
def skipValue? : List Char → Option (List Char)
  | '"' :: c :: rest =>
    let inside := fun (d : Char) => 0x20 ≤ d.toNat && d.toNat != 0x7F
    if !inside c then none
    else match rest.dropWhile fun d => inside d && d != '"' with
      | '"' :: rest =>
        match rest.dropWhile (· == ' ') with
        | [] => some []
        | ';' :: rest => some rest
        | _ => none
      | _ => none
  | text =>
    match text.dropWhile isNameChar with
    | [] => some []
    | ';' :: rest => if (text.takeWhile isNameChar).isEmpty then none else some rest
    | _ => none

/-- Whether parameters can be read. Each round gets past one parameter. -/
def areParameters : (rounds : Nat) → List Char → Bool
  | 0, _ => false
  | rounds + 1, text =>
    let text := text.dropWhile (· == ' ')
    text.isEmpty || !(text.takeWhile isNameChar).isEmpty &&
      match text.dropWhile isNameChar with
      | '=' :: rest =>
        match skipValue? rest with
        | some rest => areParameters rounds rest
        | none => false
      | _ => false

def read? (text : List Char) : Option MediaType :=
  match Text.cutFirst? '/' text with
  | none => none
  | some (main, rest) =>
    let name := rest.takeWhile isNameChar
    let isComplete := match rest.dropWhile isNameChar with
      | [] => true
      | ';' :: more => !name.isEmpty && areParameters (more.length + 1) more
      | _ => false
    if main.isEmpty || !main.all isNameChar || !isComplete then none
    else match Text.cutLast? '+' name with
      | some (sub, suffix) =>
        if sub.isEmpty then some ⟨main, name, none⟩ else some ⟨main, sub, some suffix⟩
      | none => some ⟨main, name, none⟩

/-- Whether a name is `word`, in any case. -/
def isWord (word : String) (name : List Char) : Bool := name.map Char.toLower == word.toList

/-- Whether a body is JSON. -/
def isJson (m : MediaType) : Bool :=
  isWord "application" m.main && (isWord "json" m.sub || m.suffix.any (isWord "json"))

end MediaType

/-! ## Bodies of requests

A body holds one value under one name (`Field`): as the member of an object, or as the only item of
an array. A fault is told as soon as it is met: either the text is no JSON, or it is, but of the
wrong shape (`BodyFault`). Members of other names are passed over.
-/

inductive BodyFault where
  | malformed
  | misshapen
deriving DecidableEq, Repr

/-- What a body holds. -/
structure Field (α : Type) where
  name : String
  /-- The reader for the value, which gives what follows it too. -/
  read : List Char → Except BodyFault (α × List Char)
  /-- The value that holds when none is given. -/
  default : Option α := none

namespace Body

open Json

/-- The fault of a text that begins with a value of the wrong kind. What stands between the
brackets of an array or an object is not looked at. A number that no double comes near is no
JSON. -/
def mismatch (text : List Char) : BodyFault :=
  let kind := fun (isValue : Bool) => if isValue then .misshapen else .malformed
  match text with
  | '[' :: _ | '{' :: _ => .misshapen
  | 't' :: rest => kind (word? "rue" rest).isSome
  | 'f' :: rest => kind (word? "alse" rest).isSome
  | 'n' :: rest => kind (word? "ull" rest).isSome
  | '"' :: rest => kind (string? true rest).isSome
  | _ =>
    match number? text with
    | some (literal, _) => kind ((Double.read? literal.toList).any Double.isFinite)
    | none => .malformed

def string (text : List Char) : Except BodyFault (String × List Char) :=
  match skipBlank text with
  | '"' :: rest =>
    match string? true rest with
    | some r => .ok r
    | none => .error .malformed
  | rest => .error (mismatch rest)

/-- A whole number below `2 ^ 64`. -/
def nat (text : List Char) : Except BodyFault (Nat × List Char) :=
  let text := skipBlank text
  match number? text with
  | none => .error (mismatch text)
  | some (literal, rest) =>
    match (Json.number literal).natBelow? UInt64.size with
    | some n => .ok (n, rest)
    | none => .error (mismatch text)

/-- The strings of an array, read on from its first item. Each round reads one item. -/
def stringsFrom : (rounds : Nat) → (done : List String) → List Char →
    Except BodyFault (List String × List Char)
  | 0, _, _ => .error .malformed
  | rounds + 1, done, text => do
    let (s, rest) ← string text
    match skipBlank rest with
    | ',' :: rest =>
      match skipBlank rest with
      | ']' :: _ => throw .malformed
      | rest => stringsFrom rounds (s :: done) rest
    | ']' :: rest => return ((s :: done).reverse, rest)
    | _ => throw .malformed

def strings (text : List Char) : Except BodyFault (List String × List Char) :=
  match skipBlank text with
  | '[' :: rest =>
    match skipBlank rest with
    | ']' :: rest => .ok ([], rest)
    | rest => stringsFrom (rest.length + 1) [] rest
  | rest => .error (mismatch rest)

variable {α : Type}

def orDefault (field : Field α) (given : Option α) : Except BodyFault α :=
  match given <|> field.default with
  | some a => .ok a
  | none => .error .misshapen

def afterColon (text : List Char) : Except BodyFault (List Char) :=
  match skipBlank text with
  | ':' :: rest => .ok rest
  | _ => .error .malformed

/-- The value after a name and a colon, if it is the name of the field. It must not be given
twice. Any other value is passed over in so many rounds at most. -/
def memberValue (field : Field α) (rounds : Nat) (given : Option α) (name : String)
    (text : List Char) : Except BodyFault (Option α × List Char) := do
  if name = field.name then
    if given.isSome then throw .misshapen
    let (a, rest) ← field.read (← afterColon text)
    return (some a, rest)
  else
    match skipFrom rounds .before [] (← afterColon text) with
    | some rest => return (given, rest)
    | none => throw .malformed

/-- The members of an object, read on from the name of the first one. Each round reads one member;
there are as many rounds left as there are characters at least. -/
def membersFrom (field : Field α) : (rounds : Nat) → (given : Option α) → List Char →
    Except BodyFault (α × List Char)
  | 0, _, _ => .error .malformed
  | rounds + 1, given, text =>
    match text with
    | '"' :: rest => do
      let some (name, rest) := string? true rest | throw .malformed
      let (given, rest) ← memberValue field rounds given name rest
      match skipBlank rest with
      | ',' :: rest => membersFrom field rounds given (skipBlank rest)
      | '}' :: rest => return (← orDefault field given, rest)
      | _ => throw .malformed
    | _ => .error .malformed

def fieldAt (field : Field α) (text : List Char) : Except BodyFault (α × List Char) :=
  match skipBlank text with
  | '{' :: rest =>
    match skipBlank rest with
    | '}' :: rest => (orDefault field none).map fun a => (a, rest)
    | rest => membersFrom field (rest.length + 1) none rest
  | '[' :: rest =>
    match skipBlank rest with
    | ']' :: rest => (orDefault field none).map fun a => (a, rest)
    | rest => do
      let (a, rest) ← field.read rest
      match skipBlank rest with
      | ']' :: rest => return (a, rest)
      | _ => throw .malformed
  | rest => .error (mismatch rest)

/-- What a body holds. Nothing may follow it. -/
def read (field : Field α) (text : String) : Except BodyFault α := do
  let (a, rest) ← fieldAt field text.toList
  if (skipBlank rest).isEmpty then return a else throw .malformed

/-! ### The bodies of the service -/

def sentences : Field (List String) := { name := "sentences", read := strings }

/-- A number of cycles to be run, one unless it is given. -/
def cycles : Field Nat := { name := "cycles", read := nat, default := some 1 }

def term : Field String := { name := "term", read := string }

end Body

end NonAxiomatic
