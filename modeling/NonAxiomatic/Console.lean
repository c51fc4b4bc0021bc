import NonAxiomatic.Engine.Step
import NonAxiomatic.Text.Quoted
import NonAxiomatic.Toml

/-!
# The console

What the program does with the arguments that it is started with, the files around it and the lines
that are typed.

* `ofArguments?_nil`: without arguments the program shows its status.
* `ScriptLine.ofText_empty`: an empty line is passed over.
-/

namespace NonAxiomatic

/-! ## Paths

A path is a text: names between slashes. Names that are empty or a single point lead nowhere, and
two points lead outside. The last name of a path (`Path.last?`) can have an ending, which comes
after its last point; a point in front of a name belongs to the name.

A file is written under another ending (`Path.draft`) before it takes its place.
-/

namespace Path

def maxNameBytes : Nat := 255

def maxBytes : Nat := 4095

def outside : String := ".."

def holdsNul (path : String) : Bool := path.toList.any fun c => c.toNat == 0

def pieces (path : String) : List String := (Text.split '/' path.toList).map String.ofList

def isIdle (piece : String) : Bool := piece.isEmpty || piece == "."

/-- The last name of a path and what stands in front of it. What follows it leads nowhere. -/
def last? (path : String) : Option (String × String) :=
  match (pieces path).reverse.dropWhile isIdle with
  | [] => none
  | name :: before =>
    if name == outside then none
    else some (String.join (before.reverse.map (· ++ "/")), name)

def splitEnding (name : String) : String × Option String :=
  match Text.cutLast? '.' name.toList with
  | none | some ([], _) => (name, none)
  | some (stem, ending) => (String.ofList stem, some (String.ofList ending))

/-- A path without the ending of its last name: as many characters less at its end, whatever
follows the name. -/
def dropEnding (path : String) : String :=
  match (last? path).bind fun (_, name) => (splitEnding name).2 with
  | some ending => String.ofList (path.toList.take (path.length - ending.length))
  | none => path

/-- A path with another ending of its last name. Where the name is two points and an ending, what
is left without the ending is the directory outside, which has no name to put an ending to. -/
def withEnding (path ending : String) : String :=
  let shorter := dropEnding path
  match last? shorter with
  | some (before, name) => before ++ (splitEnding name).1 ++ "." ++ ending
  | none => shorter

def draft (path : String) : String := withEnding path "tmp"

def dropSlashes (path : String) : String :=
  String.ofList (path.toList.reverse.dropWhile (· == '/')).reverse

end Path

/-! ## Files

What a command sees of the files around it is a function from paths (`Look`). `Directory` is a
directory of files that is held in memory, in which paths are followed as they are on a disk: name
by name from the outside to the inside, through directories only. Of what lies outside of it, only
what every system has is known.

A path can be followed in this way whatever its length (`place?`); to be used as a whole
(`reach?`), it must not be longer than paths may be.
-/

inductive Found where
  | file (bytes : ByteArray)
  | other

abbrev Look := String → Except PathFault Found

def Look.reaches (look : Look) (path : String) : Bool :=
  path.utf8ByteSize ≤ Path.maxBytes && (look path).isOk

def Look.read (look : Look) (path : String) (limit : Nat) : Except FileError ByteArray :=
  match look path with
  | .error fault => .error (.badPath path fault)
  | .ok .other => .error (.notRegular path)
  | .ok (.file bytes) =>
    if limit < bytes.size then .error (.tooLarge bytes.size limit) else .ok bytes

/-- Files under their places: the names of the directories that lead to them, and their own. -/
structure Directory where
  files : List (List String × ByteArray) := []
deriving Inhabited

namespace Directory

def root : List String := ["/"]

def nullDevice : List String := root ++ ["dev", "null"]

def systemPlaces : List (List String) :=
  root :: ["bin", "dev", "etc", "home", "tmp", "usr", "var"].map fun name => root ++ [name]

def isOuter (place : List String) : Bool := place.all (· == Path.outside)

def hasDirectory (d : Directory) (place : List String) : Bool :=
  isOuter place || systemPlaces.contains place ||
    d.files.any fun f => place.isPrefixOf f.1 && place.length < f.1.length

def file? (d : Directory) (place : List String) : Option ByteArray := d.files.lookup place

def enter (d : Directory) (place : List String) (name : String) :
    Except PathFault (List String) :=
  if (d.file? place).isSome || place = nullDevice then .error .notDirectory
  else if !d.hasDirectory place then .error .missing
  else if Path.maxNameBytes < name.utf8ByteSize then .error .tooLong
  else if Path.isIdle name || (name = Path.outside && place = root) then .ok place
  else if name = Path.outside && !isOuter place then .ok place.dropLast
  else .ok (place ++ [name])

def place? (d : Directory) (path : String) : Except PathFault (List String) :=
  let start := if path.toList.head? = some '/' then root else []
  if path.isEmpty then .error .missing
  else if Path.holdsNul path then .error .holdsNul
  else (Path.pieces path).foldlM d.enter start

def checkWhole (path : String) : Except PathFault Unit :=
  if Path.holdsNul path then .error .holdsNul
  else if Path.maxBytes < path.utf8ByteSize then .error .tooLong
  else .ok ()

def reach? (d : Directory) (path : String) : Except PathFault (List String) := do
  checkWhole path
  d.place? path

def found (d : Directory) (place : List String) : Except PathFault Found :=
  match d.file? place with
  | some bytes => .ok (.file bytes)
  | none =>
    if d.hasDirectory place || place = nullDevice then .ok .other else .error .missing

def look (d : Directory) : Look := fun path => d.place? path >>= d.found

def read? (d : Directory) (path : String) : Option ByteArray :=
  match d.reach? path with
  | .ok place => if place = nullDevice then some .empty else d.file? place
  | .error _ => none

def erase (d : Directory) (place : List String) : Directory :=
  ⟨d.files.filter fun f => f.1 != place⟩

def put (d : Directory) (place : List String) (bytes : ByteArray) : Except PathFault Directory :=
  if d.hasDirectory place then .error .isDirectory
  else .ok ⟨(place, bytes) :: (d.erase place).files⟩

def write (d : Directory) (path : String) (bytes : ByteArray) : Except PathFault Directory := do
  d.put (← d.reach? path) bytes

/-- Move a file to the place of another path. Slashes at its end ask for a directory. -/
def move (d : Directory) (source target : String) : Except PathFault Directory := do
  let start ← d.reach? source
  checkWhole target
  let goal ← d.place? (Path.dropSlashes target)
  if Path.dropSlashes target ≠ target then throw .notDirectory
  if goal = start then return d
  match d.file? start with
  | some bytes => (d.erase start).put goal bytes
  | none => throw .missing

/-- Write a file, which takes its place when it is complete. Gives what the directory is in the
end, also where this fails half way. -/
def replace (d : Directory) (path : String) (bytes : ByteArray) :
    Except FileError Unit × Directory :=
  match d.write (Path.draft path) bytes with
  | .error fault => (.error (.unwritable fault), d)
  | .ok d =>
    match d.move (Path.draft path) path with
    | .error fault => (.error (.irreplaceable fault), d)
    | .ok d => (.ok (), d)

end Directory

/-! ## Invocations

What the program is asked to do when it is started (`Invocation`), read from the arguments of the
command line (`Invocation.ofArguments?`). Arguments are taken one by one. Before the name of a
command and after it stand options, each at most once; where one is given on both sides, the inner
one counts. After two dashes all arguments are words.
-/

inductive Command where
  | run (script : String) (cycles : Nat)
  | shell
  | parse (text : String)
  | status
  | config
deriving DecidableEq, Repr, Inhabited

structure Invocation where
  command : Command := .status
  settings : Option String := none
  /-- The seed of the draws, which overrides the one in the settings. -/
  seed : Option UInt64 := none
  /-- The file that the engine is restored from and kept in. -/
  state : Option String := none
  json : Bool := false
deriving DecidableEq, Repr, Inhabited

inductive Flag where
  | verbose | quiet | settings | seed | state | json | script | cycles
deriving DecidableEq, Repr

namespace Flag

def all : List Flag := [verbose, quiet, settings, seed, state, json, script, cycles]

def long : Flag → String
  | verbose => "verbose"
  | quiet => "quiet"
  | settings => "config"
  | seed => "seed"
  | state => "state"
  | json => "json-mode"
  | script => "file"
  | cycles => "cycles"

def short? : Flag → Option Char
  | verbose => some 'v'
  | quiet => some 'q'
  | settings => some 'c'
  | state => some 'S'
  | script => some 'f'
  | seed | json | cycles => none

def takesValue : Flag → Bool
  | verbose | quiet | json => false
  | settings | seed | state | script | cycles => true

def isForRun : Flag → Bool
  | script | cycles => true
  | verbose | quiet | settings | seed | state | json => false

def number? (value : String) : Option Nat := Text.word? UInt64.size value.toList

/-- Whether a value may go with an option: numbers have to fit a word, and files need a name. -/
def accepts (value : String) : Flag → Bool
  | seed | cycles => (number? value).isSome
  | settings | state | script => !value.isEmpty
  | verbose | quiet | json => true

end Flag

inductive CommandName where
  | run | shell | parse | status | config
deriving DecidableEq, Repr

def CommandName.ofText? : String → Option CommandName
  | "run" => some run
  | "shell" => some shell
  | "parse" => some parse
  | "status" => some status
  | "config" => some config
  | _ => none

structure Arguments where
  command : Option CommandName := none
  outer : List (Flag × String) := []
  /-- The options on the current side of it, with their values. -/
  given : List (Flag × String) := []
  words : List String := []
  awaiting : Option Flag := none
  /-- Whether all arguments to come are words. -/
  onlyWords : Bool := false
deriving Repr, Inhabited

namespace Arguments

/-- Take an option with its value. It is refused when it has been given before. -/
def give? (a : Arguments) (flag : Flag) (value : String) : Option Arguments :=
  if a.given.any (fun g => g.1 == flag) || !flag.accepts value then none
  else some { a with given := (flag, value) :: a.given, awaiting := none }

def find? (a : Arguments) (fits : Flag → Bool) : Option Flag :=
  Flag.all.find? fun flag => fits flag && (!flag.isForRun || a.command == some .run)

def takeLong? (a : Arguments) (text : List Char) : Option Arguments := do
  let (name, value) := match Text.cutFirst? '=' text with
    | some (name, value) => (name, some (String.ofList value))
    | none => (text, none)
  let flag ← a.find? fun flag => flag.long.toList == name
  match flag.takesValue, value with
  | true, some value => a.give? flag value
  | true, none => return { a with awaiting := some flag }
  | false, none => a.give? flag ""
  | false, some _ => none

/-- Take options by their letters. A value is what follows its letter, or the next argument. -/
def takeShort? (a : Arguments) : List Char → Option Arguments
  | [] => some a
  | c :: rest => do
    let flag ← a.find? fun flag => flag.short? == some c
    if flag.takesValue then
      match rest with
      | [] => return { a with awaiting := some flag }
      | '=' :: value => a.give? flag (String.ofList value)
      | value => a.give? flag (String.ofList value)
    else
      let a ← a.give? flag ""
      a.takeShort? rest

/-- Take a word: the name of the command, or one of the words after it. -/
def takeWord? (a : Arguments) (word : String) : Option Arguments :=
  match a.command with
  | some _ => some { a with words := a.words ++ [word] }
  | none =>
    if a.onlyWords then none
    else (CommandName.ofText? word).map fun name => { command := some name, outer := a.given }

def take? (a : Arguments) (argument : String) : Option Arguments :=
  if a.onlyWords then a.takeWord? argument
  else match a.awaiting, argument.toList with
    | some _, '-' :: _ :: _ => none
    | some flag, _ => a.give? flag argument
    | none, ['-', '-'] => some { a with onlyWords := true }
    | none, '-' :: '-' :: text => a.takeLong? text
    | none, '-' :: c :: rest => a.takeShort? (c :: rest)
    | none, _ => a.takeWord? argument

/-- The value of an option; the inner one counts. -/
def value? (a : Arguments) (flag : Flag) : Option String := (a.given ++ a.outer).lookup flag

def number? (a : Arguments) (flag : Flag) : Option Nat := (a.value? flag).bind Flag.number?

def command? (a : Arguments) : Option Command :=
  match a.command, a.words with
  | none, [] | some .status, [] => some .status
  | some .shell, [] => some .shell
  | some .config, [] => some .config
  | some .parse, [text] => some (.parse text)
  | some .run, [] => (a.value? .script).map fun script => .run script ((a.number? .cycles).getD 0)
  | _, _ => none

end Arguments

namespace Invocation

def ofArguments? (arguments : List String) : Option Invocation := do
  let a ← arguments.foldlM Arguments.take? {}
  if a.awaiting.isSome then none
  let command ← a.command?
  return { command, settings := a.value? .settings, seed := (a.number? .seed).map Nat.toUInt64
           state := a.value? .state, json := (a.value? .json).isSome }

def paths (i : Invocation) : List String :=
  i.settings.toList ++ i.state.toList ++ match i.command with
    | .run script _ => [script]
    | .shell | .parse _ | .status | .config => []

@[simp] theorem ofArguments?_nil : ofArguments? [] = some {} := rfl

end Invocation

/-! ## Scripts

A script tells a reasoner what to do, line by line: a sentence is put in, a bare number of cycles
is run, and blank lines and remarks after two slashes are passed over.
-/

inductive ScriptLine where
  | skip
  | cycles (n : Nat)
  | sentence (text : String)
deriving DecidableEq, Repr

def ScriptLine.ofText (line : String) : ScriptLine :=
  let text := Text.trim line.toList
  if text.isEmpty || ['/', '/'].isPrefixOf text then skip
  else match Text.word? UInt64.size text with
    | some n => cycles n
    | none => sentence (String.ofList text)

/-- Do what a line of a script says. A line that is refused leaves the engine as it was. -/
def Engine.applyLine {σ : Type} [DrawSource σ] (e : Engine σ) (line : String) :
    Except SentenceError (Engine σ) :=
  match ScriptLine.ofText line with
  | .skip => .ok e
  | .cycles n =>
    match Engine.run n e with
    | (.ok (), e) => .ok e
    | (.error cause, _) => .error (.fault cause)
  | .sentence text => (e.submit text).map (·.2)

@[simp] theorem ScriptLine.ofText_empty : ScriptLine.ofText "" = skip := rfl

/-! ## Sessions

What each command does (`Invocation.execute`), given the files it sees and the lines that are
typed: what it shows, what it keeps as the state of the engine, and where it fails. Settings
come first; a script is read before the state is restored; and the state is kept only when all
has gone well.
-/

structure Outcome where
  shown : String := ""
  complaints : String := ""
  /-- The file that the state is to be kept in, and its contents. -/
  kept : Option (String × ByteArray) := none
  failure : Option Failure := none
deriving Inhabited

namespace Session

def maxScriptBytes : Nat := 10 * 1024 * 1024

def maxSettingsBytes : Nat := 1024 * 1024

/-! ### Settings and state -/

def readSettings (look : Look) (path : String) : Except Failure Settings := do
  let bytes ← (look.read path maxSettingsBytes).mapError .file
  match String.fromUTF8? bytes with
  | some text => (Settings.ofText text).mapError .settings
  | none =>
    let (start, length) := (Text.fault? bytes).getD (0, none)
    throw (.settings (.notUtf8 start length))

/-- The settings that hold: those of a file or else the defaults, with the seed that is asked for.
They have to be in range. -/
def settings (look : Look) (i : Invocation) : Except Failure Settings := do
  let s ← match i.settings with
    | some path => readSettings look path
    | none => pure {}
  let s := { s with seed := i.seed <|> s.seed }
  s.validate.mapError .settings
  return s

def openEngine (look : Look) (s : Settings) (state : Option String) :
    Except Failure (Engine Keystream) := do
  let e ← (Engine.ofSettings s).mapError .settings
  match state.filter look.reaches with
  | none => return e
  | some path =>
    let bytes ← (look.read path Snapshot.maxBytes).mapError .file
    let snapshot ← (Snapshot.ofBytes bytes).mapError .snapshot
    let (_, e) ← (e.restore snapshot).mapError .restore
    return e

def keep {σ : Type} (e : Engine σ) (state : Option String) : Option (String × ByteArray) :=
  state.map fun path => (path, e.snapshot.toBytes)

/-! ### Lines -/

def outputText (json : Bool) (outputs : List Output) : String :=
  String.join (outputs.map fun o =>
    (if json then (o.toJson Json.double).compact else o.text) ++ "\n")

/-- Run the lines of a script, from a number on, behind what has been shown. The first line that
is refused ends it. -/
def runLines {σ : Type} [DrawSource σ] (json : Bool) :
    (number : Nat) → List (List Char) → Engine σ → (shown : String) →
      String × Except Failure (Engine σ)
  | _, [], e, shown => (shown, .ok e)
  | number, line :: lines, e, shown =>
    match e.applyLine (String.ofList line) with
    | .error (.text cause) => (shown, .error (.text (.atLine number cause)))
    | .error (.fault cause) => (shown, .error (.fault cause))
    | .ok e =>
      let (outputs, e) := e.drain
      runLines json (number + 1) lines e (shown ++ outputText json outputs)

/-- Do what a line says that is typed. Gives what is shown, and a complaint if the line is
refused. -/
def typedLine {σ : Type} [DrawSource σ] (json : Bool) (e : Engine σ) (line : String) :
    Except Text.Fault (String × String × Engine σ) :=
  match e.applyLine line with
  | .error (.fault cause) => .error cause
  | .error (.text cause) =>
    let (outputs, e) := e.drain
    .ok (outputText json outputs, (Failure.text cause).message ++ "\n", e)
  | .ok e =>
    let (outputs, e) := e.drain
    .ok (outputText json outputs, "", e)

/-- Do what lines say that are typed, behind what was shown and complained of. A line that comes to
a fault ends it. -/
def typedLines {σ : Type} [DrawSource σ] (json : Bool) :
    List (List Char) → Engine σ → (shown complaints : String) →
      String × String × Except Text.Fault (Engine σ)
  | [], e, shown, complaints => (shown, complaints, .ok e)
  | line :: lines, e, shown, complaints =>
    match typedLine json e (String.ofList line) with
    | .error cause => (shown, complaints, .error cause)
    | .ok (more, complaint, e) =>
      typedLines json lines e (shown ++ more) (complaints ++ complaint)

/-! ### Commands -/

def run (look : Look) (s : Settings) (i : Invocation) (script : String) (cycles : Nat) :
    Outcome :=
  let opened := do
    let bytes ← (look.read script maxScriptBytes).mapError Failure.file
    return (Text.lines (Text.readable bytes).toList, ← openEngine look s i.state)
  match opened with
  | .error failure => { failure := some failure }
  | .ok (lines, e) =>
    match runLines i.json 1 lines e "" with
    | (shown, .error failure) => { shown, failure := some failure }
    | (shown, .ok e) =>
      match Engine.run cycles e with
      | (.error cause, _) => { shown, failure := some (.fault cause) }
      | (.ok (), e) =>
        let (outputs, e) := e.drain
        { shown := shown ++ outputText i.json outputs, kept := keep e i.state }

def greeting (json : Bool) : String :=
  if json then ""
  else "Narsese shell. Enter sentences, a number to run cycles, Ctrl+D to quit.\n"

def shell (look : Look) (s : Settings) (i : Invocation) (typed : String) : Outcome :=
  match openEngine look s i.state with
  | .error failure => { failure := some failure }
  | .ok e =>
    match typedLines i.json (Text.lines typed.toList) e (greeting i.json) "" with
    | (shown, complaints, .error cause) => { shown, complaints, failure := some (.fault cause) }
    | (shown, complaints, .ok e) => { shown, complaints, kept := keep e i.state }

def readingText (json : Bool) (kind text : String) (complexity : Nat) : String :=
  if json then
    (Json.object [("kind", .string kind), ("canonical", .string text),
      ("complexity", .nat complexity)]).pretty ++ "\n"
  else kind ++ ": " ++ text ++ "\ncomplexity: " ++ toString complexity ++ "\n"

/-- Show how a text is read: as a sentence, or else as a term. -/
def parse (json : Bool) (text : String) : Outcome :=
  match Sentence.parse text {} 0 with
  | .ok (s, _) => { shown := readingText json "sentence" (s.renderAt 0) s.statement.complexity }
  | .error _ =>
    match Term.parse text with
    | .ok t => { shown := readingText json "term" t.text t.complexity }
    | .error cause => { failure := some (.text cause) }

def statusText {σ : Type} (json : Bool) (state : Option String) (e : Engine σ) : String :=
  if json then
    (Json.object [("state", .option .string state), ("cycle", .nat e.cycle.toNat),
      ("concepts", .nat e.memory.size), ("buffered", .nat e.input.size),
      ("pending_operations", .nat e.operations.length)]).pretty ++ "\n"
  else
    "NARS Engine Status\n==================\n" ++
      (match state with
        | some path => "State: " ++ Text.quoted path ++ "\n\n"
        | none => "") ++
      "Cycle:              " ++ toString e.cycle.toNat ++ "\n" ++
      "Concepts:           " ++ toString e.memory.size ++ "\n" ++
      "Buffered tasks:     " ++ toString e.input.size ++ "\n" ++
      "Pending operations: " ++ toString e.operations.length ++ "\n"

def status (look : Look) (s : Settings) (i : Invocation) : Outcome :=
  match openEngine look s i.state with
  | .error failure => { failure := some failure }
  | .ok e => { shown := statusText i.json i.state e }

end Session

def Invocation.execute (i : Invocation) (look : Look) (typed : String) : Outcome :=
  match Session.settings look i with
  | .error failure => { failure := some failure }
  | .ok s =>
    match i.command with
    | .run script cycles => Session.run look s i script cycles
    | .shell => Session.shell look s i typed
    | .parse text => Session.parse i.json text
    | .status => Session.status look s i
    | .config => { shown := s.text }

/-- Keep the state in a directory. A state that cannot be kept is the failure of the command. -/
def Outcome.store (o : Outcome) (d : Directory) : Outcome × Directory :=
  match o.kept with
  | none => (o, d)
  | some (path, bytes) =>
    match d.replace path bytes with
    | (.ok (), d) => (o, d)
    | (.error cause, d) => ({ o with failure := some (.file cause) }, d)

end NonAxiomatic
