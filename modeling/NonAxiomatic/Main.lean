import NonAxiomatic.Console

/-!
# The program

What an invocation asks for is done with the files on the disk and with what is typed. A shell
answers each line before the next one is read.
-/

namespace NonAxiomatic

namespace Program

/-- What stands at a place: its bytes, unless it is no file. -/
def readPlace (place : String) : IO Found := do
  try return .file (← IO.FS.readBinFile place)
  catch _ => return .other

def lookUp (path : String) : IO (Except PathFault Found) := do
  try return .ok (← readPlace (← IO.FS.realPath path).toString)
  catch
    | .noFileOrDirectory .. => return .error .missing
    | .inappropriateType .. => return .error .notDirectory
    | _ => return .error .tooLong

def lookAround (i : Invocation) : IO Look := do
  let found ← i.paths.mapM fun path => return (path, ← lookUp path)
  return fun path => (found.lookup path).getD (.error .missing)

def print (shown complaints : String) : IO Unit := do
  (← IO.getStdout).putStr shown
  (← IO.getStdout).flush
  (← IO.getStderr).putStr complaints

def fail (message : String) : IO UInt32 := do
  print "" ("Error: " ++ message ++ "\n")
  return 1

def keepStep (step : String) (action : IO Unit) (next : IO UInt32) : IO UInt32 := do
  match ← action.toBaseIO with
  | .ok () => next
  | .error e => fail ("I/O error: " ++ step ++ " state: " ++ toString e)

def keep (path : String) (bytes : ByteArray) : IO UInt32 :=
  keepStep "Write" (IO.FS.writeBinFile (Path.draft path) bytes) <|
    keepStep "Replace" (IO.FS.rename (Path.draft path) path) (return 0)

def finish (o : Outcome) : IO UInt32 := do
  print o.shown o.complaints
  match o.failure, o.kept with
  | some failure, _ => fail failure.message
  | none, some (path, bytes) => keep path bytes
  | none, none => return 0

partial def converse (json : Bool) (e : Engine Keystream) :
    IO (Except Text.Fault (Engine Keystream)) := do
  let line ← (← IO.getStdin).getLine
  if line.isEmpty then return .ok e
  match Session.typedLine json e line with
  | .error cause => return .error cause
  | .ok (shown, complaint, e) =>
    print shown complaint
    converse json e

def shell (look : Look) (i : Invocation) : IO UInt32 := do
  let opened := do Session.openEngine look (← Session.settings look i) i.state
  match opened with
  | .error failure => fail failure.message
  | .ok e =>
    print (Session.greeting i.json) ""
    match ← converse i.json e with
    | .error cause => fail (Failure.fault cause).message
    | .ok e => finish { kept := Session.keep e i.state }

def usage : String :=
  "Usage: [-v] [-q] [-c FILE] [--seed N] [-S FILE] [--json-mode] [COMMAND]\n" ++
    "Commands: run -f FILE [--cycles N], shell, parse TEXT, status, config\n"

def run (arguments : List String) : IO UInt32 := do
  match Invocation.ofArguments? arguments with
  | none =>
    print "" usage
    return 2
  | some i =>
    let look ← lookAround i
    if i.command = .shell then shell look i else finish (i.execute look "")

end Program

end NonAxiomatic

def main (arguments : List String) : IO UInt32 := NonAxiomatic.Program.run arguments
