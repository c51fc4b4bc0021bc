import NonAxiomatic.Sentence
import NonAxiomatic.Text.Bytes

/-!
# Reading terms and sentences

Terms (`Term.parse`), sentences (`Sentence.parse`) and batches of sentences (`Batch.check`) are read
from text.

* `copulasFrom_symbol`: what is found as a copula stands in the text at its place.
* `flatten_splitOperands`: splitting a compound's body loses only the dividers.
-/

namespace NonAxiomatic

/-! ## Reading terms

`Term.parse` reads a term from its text, in which blank characters mean nothing. What a text is
shows in its first character: after `(` a statement, if a copula stands inside of just this
bracket, and a compound otherwise; after `{` or `[` a set; after `#` or `?` a variable; anything
else is a name.
-/

namespace Term

open Text

def maxDepth : Nat := 64

/-! ### Finding the parts -/

/-- The copulas that stand inside of exactly one round bracket, with their places. `depth` is the
number of round brackets open so far and `place` the place of the text's first character. -/
def copulasFrom (place : Nat) (depth : Int) : List Char → List (Nat × Copula)
  | [] => []
  | c :: rest =>
    if c == '(' then copulasFrom (place + 1) (depth + 1) rest
    else if c == ')' then copulasFrom (place + 1) (depth - 1) rest
    else match depth == 1, Copula.ofSymbol? (c :: rest.take 2) with
      | true, some copula => (place, copula) :: copulasFrom (place + 1) depth rest
      | _, _ => copulasFrom (place + 1) depth rest

/-- The copula of a statement: the last one that stands inside of exactly one round bracket. -/
def topCopula? (text : List Char) : Option (Nat × Copula) :=
  (copulasFrom 0 0 text).getLast?

def opensBracket (c : Char) : Bool := c == '(' || opensSet c

def closesBracket (c : Char) : Bool := c == ')' || closesSet c

def pushFirst (c : Char) : List (List Char) → List (List Char)
  | [] => [[c]]
  | piece :: pieces => (c :: piece) :: pieces

/-- The pieces between the commas outside of all brackets; `none` when the brackets do not match
in number. `depth` is the number of brackets open so far. -/
def splitOperands : Nat → List Char → Option (List (List Char))
  | 0, [] => some [[]]
  | _ + 1, [] => none
  | depth, c :: rest =>
    if opensBracket c then (splitOperands (depth + 1) rest).map (pushFirst c)
    else if closesBracket c then
      match depth with
      | 0 => none
      | depth + 1 => (splitOperands depth rest).map (pushFirst c)
    else if c == ',' && depth == 0 then (splitOperands 0 rest).map ([] :: ·)
    else (splitOperands depth rest).map (pushFirst c)

/-- A name without the numbers that follow its commas. `inNumber` says that such a number is
being left out. -/
def dropIndices (inNumber : Bool) : List Char → List Char
  | [] => []
  | c :: rest =>
    if inNumber && c.isDigit then dropIndices true rest
    else if c == ',' && rest.head?.any Char.isDigit then dropIndices true rest
    else c :: dropIndices false rest

/-! ### Reading the parts -/

/-- The interval of a statement: the number that ends the compound on its left side. -/
def trailingInterval (subject : List Char) : UInt32 :=
  match (afterLast ',' subject).reverse with
  | ')' :: digits => ((word? UInt32.size digits.reverse).getD 0).toUInt32
  | _ => 0

/-- The connector at the head of a compound, and the text of its operands. `whole` is the text of
the compound with its brackets. -/
def splitConnector (inner : List Char) (whole : String) :
    Except SyntaxError (Connector × List Char) := do
  let width ← match inner with
    | _ :: ',' :: _ => pure 1
    | _ :: _ :: _ => pure 2
    | _ => throw (.missingConnector whole)
  let symbol := inner.take width
  let connector ← match (Connector.ofSymbol? symbol).filter fun c => !c.isSet with
    | some connector => pure connector
    | none => throw (.unknownConnector (String.ofList symbol) whole)
  match inner.drop width with
  | ',' :: body => return (connector, body)
  | _ => throw (.unseparatedConnector whole)

/-- What can stand between two commas of a compound. -/
inductive Operand where
  | gap (interval : UInt32)
  | term (t : Term)

def Operand.term? : Operand → Option Term
  | term t => some t
  | gap _ => none

def Operand.gap? : Operand → Option UInt32
  | gap interval => some interval
  | term _ => none

section
variable (read : List Char → Except SyntaxError Term)

/-- Read a statement whose copula stands at `place`. -/
def readStatement (text : List Char) (place : Nat) (copula : Copula) :
    Except SyntaxError Term := do
  let subjectText := (text.take place).drop 1
  let predicateText := (text.drop (place + 3)).dropLast
  if subjectText.isEmpty || predicateText.isEmpty then
    throw (.missingSide (String.ofList text))
  let interval := if copula.isFirstOrder then 0 else trailingInterval subjectText
  let subject ← read subjectText
  let predicate ← read predicateText
  return relate subject copula predicate interval

def readOperand (whole : String) (token : List Char) : Except SyntaxError Operand :=
  if token.isEmpty then throw (.emptyOperand whole)
  else if token.all Char.isDigit then
    match word? UInt32.size token with
    | some n => return .gap n.toUInt32
    | none => throw (.badInterval (String.ofList token))
  else .term <$> read token

def readCompound (text : List Char) : Except SyntaxError Term := do
  let whole := String.ofList text
  if text.length < 2 then throw (.truncatedCompound whole)
  let inner := text.tail.dropLast
  let (connector, body) ← match text.head?.bind Connector.ofBracket? with
    | some set =>
      let close := set.closing?.getD ')'
      if text.getLast? = some close then pure (set, inner)
      else throw (.unclosedSet close whole)
    | none => splitConnector inner whole
  match splitOperands 0 body with
  | none => throw (.unbalanced (String.ofList body))
  | some tokens =>
    let operands ← tokens.mapM (readOperand read whole)
    let terms := operands.filterMap Operand.term?
    if terms.isEmpty then throw (.noOperands whole)
    return compose connector terms (operands.filterMap Operand.gap?)

/-- Read a variable whose mark is `symbol`. -/
def readVariable (symbol : Char) (rest : List Char) : Except SyntaxError Term := do
  let (name, dependencies) ← match cutFirst? '(' rest with
    | none => pure (rest, [])
    | some (name, list) =>
      match cutLast? ')' list with
      | none => throw (.unclosedDependencies (String.ofList (symbol :: rest)))
      | some (inner, _) =>
        let dependencies ← ((split ',' inner).filter fun d => !d.isEmpty).mapM read
        pure (name, dependencies)
  let kind : VariableKind :=
    if symbol == '?' then .query else if dependencies.isEmpty then .independent else .dependent
  ofVariable kind (String.ofList name) dependencies

end

/-- Read a term from text without blank characters, in which brackets may be nested less than
`depth` deep. -/
def readAt : (depth : Nat) → List Char → Except SyntaxError Term
  | 0, _ => throw .tooDeep
  | depth + 1, text =>
    match text with
    | [] => throw .emptyTerm
    | first :: rest =>
      if first == '(' then
        if text.getLast? != some ')' then throw (.unclosedTerm (String.ofList text))
        else match topCopula? text with
          | some (place, copula) => readStatement (readAt depth) text place copula
          | none => readCompound (readAt depth) text
      else if opensSet first then readCompound (readAt depth) text
      else if first == '#' || first == '?' then readVariable (readAt depth) first rest
      else ofName (String.ofList (dropIndices false text))

def parseChars (text : List Char) : Except SyntaxError Term :=
  let bytes := (String.ofList text).utf8ByteSize
  if SyntaxError.maxSentenceBytes < bytes then throw (.tooLong bytes)
  else match text.find? fun c => 0x80 ≤ c.toNat with
    | some c => throw (.nonAscii c)
    | none => readAt (maxDepth + 1) (compact text)

def parse (text : String) : Except SyntaxError Term := parseChars text.toList

/-! ### The parts are parts of the text -/

theorem copulasFrom_symbol {text : List Char} {place : Nat} {depth : Int} {i : Nat}
    {copula : Copula} (h : (i, copula) ∈ copulasFrom place depth text) :
    place ≤ i ∧ (text.drop (i - place)).take 3 = copula.symbol.toList := by
  induction text generalizing place depth with
  | nil => simp [copulasFrom] at h
  | cons c rest ih =>
    have later {depth : Int} (h : (i, copula) ∈ copulasFrom (place + 1) depth rest) :
        place ≤ i ∧ ((c :: rest).drop (i - place)).take 3 = copula.symbol.toList := by
      obtain ⟨hle, htake⟩ := ih h
      refine ⟨by omega, ?_⟩
      rw [show i - place = (i - (place + 1)) + 1 by omega, List.drop_succ_cons]
      exact htake
    simp only [copulasFrom] at h
    split at h
    · exact later h
    · split at h
      · exact later h
      · split at h
        · rename_i found _ hfound
          rcases List.mem_cons.1 h with heq | h
          · simp only [Prod.mk.injEq] at heq
            obtain ⟨rfl, rfl⟩ := heq
            simpa using (Copula.symbol_of_ofSymbol? hfound).symm
          · exact later h
        · exact later h

@[simp] theorem flatten_pushFirst (c : Char) (pieces : List (List Char)) :
    (pushFirst c pieces).flatten = c :: pieces.flatten := by
  cases pieces <;> simp [pushFirst]

theorem flatten_splitOperands {depth : Nat} {text : List Char} {pieces : List (List Char)}
    (h : splitOperands depth text = some pieces) :
    pieces.flatten.filter (· != ',') = text.filter (· != ',') := by
  fun_induction splitOperands depth text generalizing pieces with
  | case1 => cases h; rfl
  | case2 => simp at h
  | case4 => simp at h
  | case6 rest _ _ hc ih =>
    obtain ⟨ps, hps, rfl⟩ := Option.map_eq_some_iff.1 h
    simp_all
  | case3 | case5 | case7 =>
    rename_i ih
    obtain ⟨ps, hps, rfl⟩ := Option.map_eq_some_iff.1 h
    simp [List.filter_cons, ih hps]

end Term

/-! ## Reading sentences

`Utterance.parse` reads a sentence from its text up to its identity, which it gets from
`Sentence.parse`. A text that is refused uses up no identity, nor does one about a cycle whose
number does not fit its word.

After the statement comes the mark of the sentence, then the tense and the value in any order.
A past or a future tense means a fixed number of cycles before or after now.
-/

/-- What the text of a sentence says. -/
structure Utterance where
  statement : Term
  kind : SentenceKind
  tense : Tense
deriving Inhabited

namespace Utterance

open Text

/-- The number of cycles between now and what is past or to come. -/
def tenseDistance : UInt64 := 5

/-- When a sentence in a tense happens, seen from a cycle. What is to come may be too far away. -/
def occurrenceAt (cycle : Cycle) : Tense → Except Fault (Option Cycle)
  | .eternal => .ok none
  | .present => .ok (some cycle)
  | .past => .ok (some (if cycle < tenseDistance then 0 else cycle - tenseDistance))
  | .future => some <$> sum64 cycle tenseDistance

/-- The tense that a text marks, and the text without its mark. -/
def takeTense (text : List Char) : Tense × List Char :=
  let found := Tense.marked.findSome? fun tense =>
    (cutWord? tense.symbol.toList text).map fun (before, after) => (tense, before ++ after)
  found.getD (.eternal, text)

def readValue (block : List Char) : Except SyntaxError (TruthValue Double) := do
  match cutFirst? ';' block with
  | none => throw (.badValue (String.ofList block))
  | some (f, c) =>
    match Double.read? f with
    | none => throw (.badFrequency (String.ofList f))
    | some frequency =>
      match Double.read? c with
      | none => throw (.badConfidence (String.ofList c))
      | some confidence => TruthValue.checked frequency confidence

/-- The value at the end of a sentence, if there is one. `whole` is the text of the sentence. -/
def readEnding (whole : String) (rest : List Char) :
    Except SyntaxError (Option (TruthValue Double)) :=
  match cutFirst? '%' rest with
  | none => if rest.isEmpty then return none else throw (.strayText (String.ofList rest))
  | some (before, inner) =>
    match cutLast? '%' inner with
    | none => throw (.unclosedValue whole)
    | some (block, after) =>
      if before.isEmpty && after.isEmpty then some <$> readValue block
      else throw (.strayAroundValue whole)

/-- Cut a text after its last closing bracket; it has to begin with an opening one. -/
def splitStatement (whole : String) (text : List Char) :
    Except SyntaxError (List Char × List Char) :=
  match cutFirst? '(' text with
  | none => throw (.missingStart whole)
  | some (before, _) =>
    match cutLast? ')' text with
    | none => throw (.missingEnd whole)
    | some (statement, rest) =>
      if before.isEmpty && !statement.isEmpty then return (statement ++ [')'], rest)
      else throw (.misplacedStart whole)

def parse (whole : String) : Except SyntaxError Utterance := do
  let (statementText, rest) ← splitStatement whole (compact whole.toList)
  let statement ← Term.parseChars statementText
  if !statement.headsSentence then throw (.notAStatement statement.text)
  let (punctuation, rest) ← match rest with
    | c :: rest => match Punctuation.ofSymbol? c with
      | some punctuation => pure (punctuation, rest)
      | none => throw (.badPunctuation whole)
    | [] => throw (.badPunctuation whole)
  let (tense, rest) := takeTense rest
  let value := (← readEnding whole rest).getD .default
  let kind : SentenceKind := match punctuation with
    | .judgment => .judgment value
    | .question => .question
    | .goal => .goal value
  return { statement, kind, tense }

end Utterance

/-- Why a sentence is not read: its text is refused, or a number of it does not fit its word. -/
inductive SentenceError where
  | text (cause : SyntaxError)
  | fault (cause : Text.Fault)

/-- Read a sentence at a cycle. It gets the next identity of the supply. -/
def Sentence.parse (text : String) (ids : IdSupply) (cycle : Cycle) :
    Except SentenceError (Sentence × IdSupply) := do
  let u ← (Utterance.parse text).mapError .text
  let occurrence ← (Utterance.occurrenceAt cycle u.tense).mapError .fault
  return (.fresh u.statement u.kind ids.peek occurrence, ids.advance)

/-! ## Batches of sentences

A request may hold many sentences. Before any of them is put in, the batch is checked as a whole:
for its size, and then sentence by sentence, so that nothing is put in of a batch that has a
fault.
-/

namespace Batch

def checkLimits (sentences : List String) : Except SyntaxError Unit :=
  if SyntaxError.maxSentences < sentences.length then .error (.tooManySentences sentences.length)
  else match sentences.find? fun s => SyntaxError.maxSentenceBytes < s.utf8ByteSize with
    | some long => .error (.longSentence long.utf8ByteSize)
    | none => .ok ()

def checkTexts : List String → Except SyntaxError Unit
  | [] => .ok ()
  | s :: rest =>
    match Utterance.parse s with
    | .error e => .error e
    | .ok _ => checkTexts rest

/-- Check a batch. -/
def check (sentences : List String) : Except SyntaxError Unit := do
  checkLimits sentences
  checkTexts sentences

end Batch

end NonAxiomatic
