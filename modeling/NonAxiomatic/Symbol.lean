import NonAxiomatic.Double

/-!
# Symbols

The symbols that terms and sentences are written with, and what can be wrong with a text of them.

* `Connector.ofSymbol?_symbol`: a symbol names its connector.
* `Connector.closing?_isSome`: exactly the sets have a closing bracket.
* `Copula.ofSymbol?_symbol`: a symbol names its copula.
* `Copula.length_symbol`: every symbol has three characters.
* `Punctuation.ofSymbol?_symbol`: a mark names its kind of sentence.
-/

namespace NonAxiomatic

/-! ## Connectors

The fourteen operators that head a compound term, with the symbol and the classes of each. A set
is written by its brackets, so its symbol is the opening one.
-/

inductive Connector where
  | extensionalSet
  | intensionalSet
  | extensionalIntersection
  | intensionalIntersection
  | extensionalDifference
  | intensionalDifference
  | product
  | extensionalImage
  | intensionalImage
  | negation
  | conjunction
  | disjunction
  | sequentialConjunction
  | parallelConjunction
deriving DecidableEq, Repr, Inhabited

namespace Connector

def all : List Connector :=
  [extensionalSet, intensionalSet, extensionalIntersection, intensionalIntersection,
    extensionalDifference, intensionalDifference, product, extensionalImage, intensionalImage,
    negation, conjunction, disjunction, sequentialConjunction, parallelConjunction]

def name : Connector → String
  | extensionalSet => "ExtensionalSet"
  | intensionalSet => "IntensionalSet"
  | extensionalIntersection => "ExtensionalIntersection"
  | intensionalIntersection => "IntensionalIntersection"
  | extensionalDifference => "ExtensionalDifference"
  | intensionalDifference => "IntensionalDifference"
  | product => "Product"
  | extensionalImage => "ExtensionalImage"
  | intensionalImage => "IntensionalImage"
  | negation => "Negation"
  | conjunction => "Conjunction"
  | disjunction => "Disjunction"
  | sequentialConjunction => "SequentialConjunction"
  | parallelConjunction => "ParallelConjunction"

/-- The characters that write a connector; for a set, its opening bracket. -/
def symbol : Connector → String
  | extensionalSet => "\x7b"
  | intensionalSet => "["
  | extensionalIntersection => "&"
  | intensionalIntersection => "|"
  | extensionalDifference => "-"
  | intensionalDifference => "~"
  | product => "*"
  | extensionalImage => "/"
  | intensionalImage => "\\"
  | negation => "--"
  | conjunction => "&&"
  | disjunction => "||"
  | sequentialConjunction => "&/"
  | parallelConjunction => "&|"

def ofSymbol? (symbol : List Char) : Option Connector :=
  all.find? fun c => c.symbol.toList == symbol

def ofBracket? : Char → Option Connector
  | '{' => some extensionalSet
  | '[' => some intensionalSet
  | _ => none

def closing? : Connector → Option Char
  | extensionalSet => some '}'
  | intensionalSet => some ']'
  | _ => none

def isSet : Connector → Bool
  | extensionalSet | intensionalSet => true
  | _ => false

/-- The connectors that build terms; the others combine statements. -/
def isFirstOrder : Connector → Bool
  | negation | conjunction | disjunction | sequentialConjunction | parallelConjunction => false
  | _ => true

/-- The connectors whose operands may change places. -/
def isOrderInvariant : Connector → Bool
  | extensionalIntersection | intensionalIntersection | extensionalSet | intensionalSet
  | negation | conjunction | disjunction => true
  | _ => false

def isConjunction : Connector → Bool
  | conjunction | sequentialConjunction | parallelConjunction => true
  | _ => false

/-- The intersection that a set of several elements stands for: such a set holds what is one of
them, or has all of them as properties. -/
def joined : Connector → Connector
  | extensionalSet => intensionalIntersection
  | _ => extensionalIntersection

theorem mem_all (c : Connector) : c ∈ all := by cases c <;> decide

@[simp] theorem ofSymbol?_symbol (c : Connector) : ofSymbol? c.symbol.toList = some c := by
  cases c <;> decide

theorem symbol_of_ofSymbol? {s : List Char} {c : Connector} (h : ofSymbol? s = some c) :
    c.symbol.toList = s := by
  simpa using List.find?_some h

@[simp] theorem closing?_isSome (c : Connector) : c.closing?.isSome = c.isSet := by
  cases c <;> rfl

end Connector

def opensSet (c : Char) : Bool := c == '{' || c == '['

def closesSet (c : Char) : Bool := c == '}' || c == ']'

/-! ## Copulas

The twelve relations between the subject and the predicate of a statement, with the symbol and
the classes of each.
-/

/-- The relation between the subject and the predicate of a statement. -/
inductive Copula where
  | inheritance
  | similarity
  | implication
  | equivalence
  | instanceOf
  | property
  | instanceProperty
  | predictiveImplication
  | retrospectiveImplication
  | concurrentImplication
  | predictiveEquivalence
  | concurrentEquivalence
deriving DecidableEq, Repr, Inhabited

namespace Copula

def all : List Copula :=
  [inheritance, similarity, implication, equivalence, instanceOf, property, instanceProperty,
    predictiveImplication, retrospectiveImplication, concurrentImplication,
    predictiveEquivalence, concurrentEquivalence]

def name : Copula → String
  | inheritance => "Inheritance"
  | similarity => "Similarity"
  | implication => "Implication"
  | equivalence => "Equivalence"
  | instanceOf => "Instance"
  | property => "Property"
  | instanceProperty => "InstanceProperty"
  | predictiveImplication => "PredictiveImplication"
  | retrospectiveImplication => "RetrospectiveImplication"
  | concurrentImplication => "ConcurrentImplication"
  | predictiveEquivalence => "PredictiveEquivalence"
  | concurrentEquivalence => "ConcurrentEquivalence"

def symbol : Copula → String
  | inheritance => "-->"
  | similarity => "<->"
  | implication => "==>"
  | equivalence => "<=>"
  | instanceOf => ":--"
  | property => "--]"
  | instanceProperty => ":-]"
  | predictiveImplication => "=/>"
  | retrospectiveImplication => "=\\>"
  | concurrentImplication => "=|>"
  | predictiveEquivalence => "</>"
  | concurrentEquivalence => "<|>"

def ofSymbol? (symbol : List Char) : Option Copula :=
  all.find? fun c => c.symbol.toList == symbol

def isFirstOrder : Copula → Bool
  | inheritance | similarity | instanceOf | property | instanceProperty => true
  | _ => false

def isSymmetric : Copula → Bool
  | similarity | equivalence | predictiveEquivalence | concurrentEquivalence => true
  | _ => false

def isTemporal : Copula → Bool
  | predictiveImplication | retrospectiveImplication | concurrentImplication
  | predictiveEquivalence | concurrentEquivalence => true
  | _ => false

def isImplication : Copula → Bool
  | implication | predictiveImplication | retrospectiveImplication | concurrentImplication => true
  | _ => false

/-- The implications from subject to predicate: all but the retrospective one. -/
def isForwardImplication (c : Copula) : Bool :=
  c.isImplication && c != retrospectiveImplication

def isEquivalence : Copula → Bool
  | equivalence | predictiveEquivalence | concurrentEquivalence => true
  | _ => false

theorem mem_all (c : Copula) : c ∈ all := by cases c <;> decide

@[simp] theorem length_symbol (c : Copula) : c.symbol.toList.length = 3 := by
  cases c <;> decide

@[simp] theorem ofSymbol?_symbol (c : Copula) : ofSymbol? c.symbol.toList = some c := by
  cases c <;> decide

theorem symbol_of_ofSymbol? {s : List Char} {c : Copula} (h : ofSymbol? s = some c) :
    c.symbol.toList = s := by
  simpa using List.find?_some h

end Copula

/-! ## Marks of names and sentences

The characters of an atomic name, the mark that says what kind of sentence a statement makes
(`Punctuation`) and the mark that says when it happens (`Tense`).
-/

def isNameChar (c : Char) : Bool := c.isAlphanum || c == '_' || c == '^'

/-- What a sentence does with its statement: believe it, ask it, or want it. -/
inductive Punctuation where
  | judgment
  | question
  | goal
deriving DecidableEq, Repr, Inhabited

namespace Punctuation

def name : Punctuation → String
  | judgment => "Judgment"
  | question => "Question"
  | goal => "Goal"

def symbol : Punctuation → Char
  | judgment => '.'
  | question => '?'
  | goal => '!'

def ofSymbol? : Char → Option Punctuation
  | '.' => some judgment
  | '?' => some question
  | '!' => some goal
  | _ => none

@[simp] theorem ofSymbol?_symbol (p : Punctuation) : ofSymbol? p.symbol = some p := by
  cases p <;> rfl

end Punctuation

/-- When a sentence holds, seen from the current cycle. -/
inductive Tense where
  | future
  | past
  | present
  | eternal
deriving DecidableEq, Repr, Inhabited

namespace Tense

/-- The tenses that have a mark, in the order in which a sentence is searched for them. -/
def marked : List Tense := [future, past, present]

def symbol : Tense → String
  | future => ":/:"
  | past => ":\\:"
  | present => ":|:"
  | eternal => ""

end Tense

/-! ## What can be wrong with a text

The causes for which text is refused: as a term, as a sentence, or as a batch of sentences.
`SyntaxError.message` words each of them.
-/

/-- Why a text is refused. -/
inductive SyntaxError where
  | tooLong (bytes : Nat)
  | nonAscii (c : Char)
  | tooDeep
  | emptyTerm
  | emptyAtom
  | badAtom (c : Char) (name : String)
  | badVariable (name : String)
  | unclosedTerm (text : String)
  | missingSide (text : String)
  | truncatedCompound (text : String)
  | unclosedSet (close : Char) (text : String)
  | missingConnector (text : String)
  | unknownConnector (symbol text : String)
  | unseparatedConnector (text : String)
  | unbalanced (text : String)
  | emptyOperand (text : String)
  | badInterval (digits : String)
  | noOperands (text : String)
  | unclosedDependencies (text : String)
  | missingStart (text : String)
  | missingEnd (text : String)
  | misplacedStart (text : String)
  | notAStatement (term : String)
  | badPunctuation (text : String)
  | unclosedValue (text : String)
  | strayAroundValue (text : String)
  | strayText (rest : String)
  | badValue (block : String)
  | badFrequency (text : String)
  | badConfidence (text : String)
  | frequencyOutOfRange (frequency : Double)
  | confidenceNotANumber
  | atLine (number : Nat) (cause : SyntaxError)
  | tooManySentences (count : Nat)
  | longSentence (bytes : Nat)

namespace SyntaxError

def maxSentenceBytes : Nat := 4096

def maxSentences : Nat := 1000

def message : SyntaxError → String
  | tooLong bytes =>
    "input of " ++ toString bytes ++ " bytes exceeds the " ++ toString maxSentenceBytes ++
      " byte limit"
  | nonAscii c => "non-ASCII character '" ++ c.toString ++ "'"
  | tooDeep => "term nesting too deep"
  | emptyTerm => "empty term"
  | emptyAtom => "empty atomic term"
  | badAtom c name =>
    "invalid character '" ++ c.toString ++ "' in atomic term '" ++ name ++ "'"
  | badVariable name => "invalid variable name '" ++ name ++ "'"
  | unclosedTerm text => "compound or statement term must end with ')': " ++ text
  | missingSide text => "statement is missing a subject or predicate: " ++ text
  | truncatedCompound text => "truncated compound term: " ++ text
  | unclosedSet close text => "set must end with '" ++ close.toString ++ "': " ++ text
  | missingConnector text => "missing connector in: " ++ text
  | unknownConnector symbol text => "unknown connector '" ++ symbol ++ "' in: " ++ text
  | unseparatedConnector text => "connector not followed by ',' in: " ++ text
  | unbalanced text => "unbalanced brackets in: " ++ text
  | emptyOperand text => "empty subterm in: " ++ text
  | badInterval digits =>
    "bad interval '" ++ digits ++ "': number too large to fit in target type"
  | noOperands text => "compound has no subterms: " ++ text
  | unclosedDependencies text => "unterminated dependency list: " ++ text
  | missingStart text => "missing statement start in '" ++ text ++ "'"
  | missingEnd text => "missing statement end in '" ++ text ++ "'"
  | misplacedStart text => "sentence must begin with a statement: '" ++ text ++ "'"
  | notAStatement term => "'" ++ term ++ "' is not a statement or higher-order compound"
  | badPunctuation text => "missing or unknown punctuation in '" ++ text ++ "'"
  | unclosedValue text => "unterminated value block in '" ++ text ++ "'"
  | strayAroundValue text => "unexpected characters around value block in '" ++ text ++ "'"
  | strayText rest => "unexpected trailing text '" ++ rest ++ "'"
  | badValue block => "value block '" ++ block ++ "' needs 'f;c'"
  | badFrequency text => "invalid frequency '" ++ text ++ "'"
  | badConfidence text => "invalid confidence '" ++ text ++ "'"
  | frequencyOutOfRange frequency =>
    "frequency " ++ Double.plain frequency ++ " must be in [0,1]"
  | confidenceNotANumber => "confidence is not a number"
  | atLine number cause => "line " ++ toString number ++ ": " ++ cause.message
  | tooManySentences count =>
    toString count ++ " sentences exceed the limit of " ++ toString maxSentences ++
      " per request"
  | longSentence bytes =>
    "sentence of " ++ toString bytes ++ " bytes exceeds maximum " ++
      toString maxSentenceBytes ++ " bytes"

end SyntaxError

end NonAxiomatic
