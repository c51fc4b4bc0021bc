import NonAxiomatic.Reader

/-!
# Reading by places

The readers of terms and sentences once more, with texts that are never taken apart but by their
places: a search says where something stands, and a slice takes what stands between two places. What
is a fault of places and counters is kept apart from what is wrong with a text (`Sliced.Reading`).
No slice may fail, not even where a reader could do without it; only single bytes are looked up
where there may be none.
-/

namespace NonAxiomatic

/-! ## Terms

The readers of terms presuppose a text of ASCII characters that holds no blank ones, as
`Sliced.parseTerm` makes sure of.
-/

namespace Sliced

open Text

/-- Reading, which may refuse its text, and may also come to a fault. -/
abbrev Reading := ExceptT SyntaxError (Except Fault)

/-! ### Finding the parts -/

/-- The search for the copula of a statement, byte by byte. -/
structure CopulaScan where
  place : Nat := 0
  depth : Int := 0
  /-- The last copula inside of exactly one of them, and its place. -/
  found : Option (Nat × Copula) := none

def CopulaScan.feed (text : List Char) (s : CopulaScan) (byte : UInt8) :
    Except Fault CopulaScan := do
  let c := Char.ofNat byte.toNat
  let next := { s with place := s.place + 1 }
  if c == '(' then return { next with depth := ← signed32 (s.depth + 1) }
  else if c == ')' then return { next with depth := ← signed32 (s.depth - 1) }
  else if s.depth == 1 && s.place + 3 ≤ byteCount text then
    match Copula.ofSymbol? (← slice text s.place (s.place + 3)) with
    | some copula => return { next with found := some (s.place, copula) }
    | none => return next
  else return next

/-- The copula of a statement: the last one that stands inside of exactly one round bracket. -/
def topCopula? (text : List Char) : Except Fault (Option (Nat × Copula)) :=
  CopulaScan.found <$> (bytes text).foldlM (CopulaScan.feed text) {}

/-- The search for the operands of a compound, character by character. -/
structure OperandScan where
  place : Nat := 0
  start : Nat := 0
  depth : Int := 0
  /-- The operands before that place. -/
  pieces : List (List Char) := []

def OperandScan.feed (body : List Char) (s : OperandScan) (c : Char) : Reading OperandScan := do
  let next := { s with place := s.place + c.utf8Size }
  if Term.opensBracket c then return { next with depth := ← signed32 (s.depth + 1) }
  else if Term.closesBracket c then
    let depth ← signed32 (s.depth - 1)
    if depth < 0 then throw (.unbalanced (String.ofList body))
    else return { next with depth }
  else if c == ',' && s.depth == 0 then
    let piece ← slice body s.start s.place
    return { next with start := s.place + 1, pieces := s.pieces ++ [piece] }
  else return next

def OperandScan.finish (body : List Char) (s : OperandScan) : Reading (List (List Char)) := do
  if s.depth != 0 then throw (.unbalanced (String.ofList body))
  else return s.pieces ++ [← sliceFrom body s.start]

def splitOperands (body : List Char) : Reading (List (List Char)) :=
  body.foldlM (OperandScan.feed body) {} >>= OperandScan.finish body

/-! ### Operations -/

def isSelf : Term → Except Fault Bool
  | .compound .extensionalSet operands _ =>
    if operands.length = 1 then
      match operands[0]? with
      | some t => .ok (t.text == Term.selfName)
      | none => .error .outOfRange
    else .ok false
  | _ => .ok false

/-- The statement of a copula and its two sides. It is found out at once if it can be carried out,
which depends on the first operand of a product on its left side. -/
def relate (subject : Term) (copula : Copula) (predicate : Term) (interval : UInt32) :
    Except Fault (Term × Bool) := do
  let t := Term.relate subject copula predicate interval
  match t with
  | .statement (.compound .product (first :: _) _) _ _ _ => return (t, ← isSelf first)
  | _ => return (t, false)

/-! ### Reading the parts -/

/-- The connector at the head of a compound, and the text of its operands. `whole` is the text of
the compound with its brackets. -/
def splitConnector (inner : List Char) (whole : String) : Reading (Connector × List Char) := do
  let width ← match byteAt? inner 1 with
    | some c => pure (if c == ',' then 1 else 2)
    | none => throw (.missingConnector whole)
  let symbol ← sliceTo inner width
  let connector ← match (Connector.ofSymbol? symbol).filter fun c => !c.isSet with
    | some connector => pure connector
    | none => throw (.unknownConnector (String.ofList symbol) whole)
  if byteAt? inner width != some ',' then throw (.unseparatedConnector whole)
  else return (connector, ← sliceFrom inner (width + 1))

section
variable (read : List Char → Reading Term)

/-- Read a statement whose copula stands at `place`. -/
def readStatement (text : List Char) (place : Nat) (copula : Copula) : Reading Term := do
  let subjectText ← slice text 1 place
  let predicateText ← slice text (place + 3) (← back (byteCount text) 1)
  if subjectText.isEmpty || predicateText.isEmpty then throw (.missingSide (String.ofList text))
  else
    let interval := if copula.isFirstOrder then 0 else Term.trailingInterval subjectText
    let subject ← read subjectText
    let predicate ← read predicateText
    let (t, _) ← relate subject copula predicate interval
    return t

def readOperand (whole : String) (token : List Char) : Reading Term.Operand :=
  if token.isEmpty then throw (.emptyOperand whole)
  else if token.all Char.isDigit then
    match word? UInt32.size token with
    | some n => return .gap n.toUInt32
    | none => throw (.badInterval (String.ofList token))
  else .term <$> read token

def readCompound (text : List Char) : Reading Term := do
  let whole := String.ofList text
  if byteCount text < 2 then throw (.truncatedCompound whole)
  else
    let inner ← slice text 1 (← back (byteCount text) 1)
    let (connector, body) ← match Connector.ofBracket? (text.head?.getD '(') with
      | some set =>
        let close := set.closing?.getD ')'
        if text.getLast? = some close then pure (set, inner)
        else throw (.unclosedSet close whole)
      | none => splitConnector inner whole
    let operands ← (← splitOperands body).mapM (readOperand read whole)
    let terms := operands.filterMap Term.Operand.term?
    if terms.isEmpty then throw (.noOperands whole)
    else return Term.compose connector terms (operands.filterMap Term.Operand.gap?)

/-- Read a variable whose mark is `symbol`. -/
def readVariable (symbol : Char) (text : List Char) : Reading Term := do
  let rest ← sliceFrom text 1
  let (name, dependencies) ← match placeOf? '(' rest with
    | none => pure (rest, [])
    | some opening =>
      match (lastPlaceOf? ')' rest).filter (opening < ·) with
      | none => throw (.unclosedDependencies (String.ofList text))
      | some closing =>
        let inner ← slice rest (opening + 1) closing
        let dependencies ← ((split ',' inner).filter fun d => !d.isEmpty).mapM read
        pure (← sliceTo rest opening, dependencies)
  let kind : VariableKind :=
    if symbol == '?' then .query else if dependencies.isEmpty then .independent else .dependent
  Term.ofVariable kind (String.ofList name) dependencies

end

/-- Read a term from text without blank characters, in which brackets may be nested less than
`depth` deep. -/
def readAt : (depth : Nat) → List Char → Reading Term
  | 0, _ => throw .tooDeep
  | depth + 1, text =>
    match text.head? with
    | none => throw .emptyTerm
    | some first =>
      if first == '(' then
        if text.getLast? != some ')' then throw (.unclosedTerm (String.ofList text))
        else do match ← topCopula? text with
          | some (place, copula) => readStatement (readAt depth) text place copula
          | none => readCompound (readAt depth) text
      else if opensSet first then readCompound (readAt depth) text
      else if first == '#' || first == '?' then readVariable (readAt depth) first text
      else Term.ofName (String.ofList (Term.dropIndices false text))

def parseChars (text : List Char) : Reading Term :=
  if SyntaxError.maxSentenceBytes < byteCount text then throw (.tooLong (byteCount text))
  else match text.find? fun c => 0x80 ≤ c.toNat with
    | some c => throw (.nonAscii c)
    | none => readAt (Term.maxDepth + 1) (compact text)

def parseTerm (text : String) : Reading Term := parseChars text.toList

/-! ## Sentences

The text of a sentence may hold any characters up to the end of its statement and behind it.
-/

/-- Cut a text after its last closing bracket; it has to begin with an opening one. -/
def splitStatement (whole : String) (text : List Char) : Reading (List Char × List Char) :=
  match placeOf? '(' text with
  | none => throw (.missingStart whole)
  | some start =>
    match lastPlaceOf? ')' text with
    | none => throw (.missingEnd whole)
    | some stop =>
      if start != 0 || stop < start then throw (.misplacedStart whole)
      else return (← sliceTo text (stop + 1), ← sliceFrom text (stop + 1))

def takeTense (text : List Char) : Except Fault (Tense × List Char) :=
  let found := Tense.marked.findSome? fun tense =>
    (placeOfWord? tense.symbol.toList text).map fun place => (tense, place)
  match found with
  | none => return (.eternal, text)
  | some (tense, place) =>
    return (tense, ← erase text place (place + byteCount tense.symbol.toList))

/-- The value at the end of a sentence, if there is one. `whole` is the text of the sentence. -/
def readEnding (whole : String) (rest : List Char) : Reading (Option (TruthValue Double)) :=
  match placeOf? '%' rest with
  | none => if rest.isEmpty then return none else throw (.strayText (String.ofList rest))
  | some opening =>
    match (lastPlaceOf? '%' rest).filter (opening < ·) with
    | none => throw (.unclosedValue whole)
    | some closing => do
      if opening != 0 || closing != (← back (byteCount rest) 1) then
        throw (.strayAroundValue whole)
      else some <$> Utterance.readValue (← slice rest (opening + 1) closing)

def readUtterance (whole : String) : Reading Utterance := do
  let (statementText, rest) ← splitStatement whole (compact whole.toList)
  let statement ← parseChars statementText
  if !statement.headsSentence then throw (.notAStatement statement.text)
  else
    let (punctuation, rest) ← match rest with
      | c :: rest => match Punctuation.ofSymbol? c with
        | some punctuation => pure (punctuation, rest)
        | none => throw (.badPunctuation whole)
      | [] => throw (.badPunctuation whole)
    let (tense, rest) ← takeTense rest
    let value := (← readEnding whole rest).getD .default
    let kind : SentenceKind := match punctuation with
      | .judgment => .judgment value
      | .question => .question
      | .goal => .goal value
    return { statement, kind, tense }

/-- Read a sentence at a cycle. It gets the next identity of the supply. -/
def parseSentence (text : String) (ids : IdSupply) (cycle : Cycle) :
    Reading (Sentence × IdSupply) := do
  let u ← readUtterance text
  let occurrence ← Utterance.occurrenceAt cycle u.tense
  return (.fresh u.statement u.kind ids.peek occurrence, ids.advance)

end Sliced

end NonAxiomatic
