import NonAxiomatic.Bag
import NonAxiomatic.Inference.Rules

/-!
# Memory

The concepts of a reasoner, in a bag under the texts of their terms. Concepts do not hold each
other: a link is followed by looking its target up, and leads nowhere when that has been dropped.

A term gets its concept by `Memory.conceptualize`, after all of its parts have got theirs; then
the new concept and those of the parts are linked. Variables get no concepts.

* `length_insert_le`: a table never holds more than it has room for.
* `mem_insert`: inserting brings in nothing but the new sentence.
-/

namespace NonAxiomatic

/-! ## Tables

What is believed, or wanted, of one statement, the most confident sentence first. A sentence that
is put in is revised rather than put beside another one where that is possible: an event with the
first entry, a timeless sentence with the first entry that it may interact with. When there is no
room, the last entry goes.
-/

/-- The sentences about one statement, the most confident one first. -/
structure Table where
  capacity : Nat
  entries : List Sentence
deriving Inhabited

namespace Table

/-- A table without entries. It has room for one at least. -/
def empty (capacity : Nat) : Table := ⟨max capacity 1, []⟩

/-- Whether an entry may stand before another one: not with less confidence. -/
def ranksBefore (p : Standpoint) (s t : Sentence) : Bool :=
  (p.confidence t).totalKey ≤ (p.confidence s).totalKey

/-- Put a sentence in as it is; behind those that are equally confident. -/
def insert (p : Standpoint) (table : Table) (s : Sentence) : Table :=
  { table with
    entries := (stableSort (ranksBefore p) (table.entries ++ [s])).take table.capacity }

/-- The place of the entry that a sentence is revised with. -/
def partner? (table : Table) (s : Sentence) : Option Nat :=
  if s.isEvent then if table.entries.isEmpty then none else some 0
  else table.entries.findIdx? (mayInteract s)

/-- The revision of a sentence with its partner, and the table without the partner. -/
def revise? (p : Standpoint) (table : Table) (s : Sentence) : Option (Conclusion × Table) := do
  let i ← table.partner? s
  let partner ← table.entries[i]?
  let revision ← revise p s partner
  return (revision, { table with entries := table.entries.eraseIdx i })

/-- Put a sentence in, revised if that is possible. Gives the revision. -/
def put (p : Standpoint) (table : Table) (s : Sentence) (ids : IdSupply) :
    Option Sentence × Table × IdSupply :=
  match table.revise? p s with
  | some (revision, table) =>
    let merged := revision.number ids.peek
    (some merged, table.insert p merged, ids.advance)
  | none => (none, table.insert p s, ids)

def best? (table : Table) : Option Sentence := table.entries.head?

def draw {σ : Type} [DrawSource σ] (table : Table) (draws : σ) : Option Sentence × σ :=
  if table.entries.isEmpty then (none, draws)
  else
    let (i, draws) := DrawSource.below table.entries.length draws
    (table.entries[i]?, draws)

def bestFor? (table : Table) (s : Sentence) : Option Sentence :=
  table.entries.find? (mayInteract s)

theorem length_insert_le (p : Standpoint) (table : Table) (s : Sentence) :
    (table.insert p s).entries.length ≤ table.capacity := by
  simp only [insert, List.length_take]
  omega

theorem mem_insert {p : Standpoint} {table : Table} {s e : Sentence}
    (h : e ∈ (table.insert p s).entries) : e ∈ table.entries ∨ e = s := by
  simpa using List.mem_of_mem_take h

end Table

/-! ## Concepts

What is known about one term: the sentences about it, and links to the concepts that it has to do
with. A link is the term of the other concept, under the text of this term.
-/

inductive LinkKind where
  /-- Between a term and each of its parts, both ways. -/
  | term
  /-- From a term to each of its parts. -/
  | subterm
  /-- From a term to what it is a part of. -/
  | superterm
  /-- From the subject of a statement about statements to this statement. -/
  | prediction
  /-- From the predicate of a statement about statements to this statement. -/
  | explanation
deriving DecidableEq, Repr

/-- What is known about one term. -/
structure Concept where
  term : Term
  beliefs : Table
  desires : Table
  termLinks : Bag Term
  subtermLinks : Bag Term
  supertermLinks : Bag Term
  predictionLinks : Bag Term
  explanationLinks : Bag Term
deriving Inhabited

namespace Concept

def empty (settings : Settings) (term : Term) : Concept :=
  let table := Table.empty settings.tableCapacity
  let links := Bag.empty settings.linkCapacity settings.bagLevels
  { term, beliefs := table, desires := table, termLinks := links, subtermLinks := links
    supertermLinks := links, predictionLinks := links, explanationLinks := links }

def links (c : Concept) : LinkKind → Bag Term
  | .term => c.termLinks
  | .subterm => c.subtermLinks
  | .superterm => c.supertermLinks
  | .prediction => c.predictionLinks
  | .explanation => c.explanationLinks

def withLinks (c : Concept) (kind : LinkKind) (links : Bag Term) : Concept :=
  match kind with
  | .term => { c with termLinks := links }
  | .subterm => { c with subtermLinks := links }
  | .superterm => { c with supertermLinks := links }
  | .prediction => { c with predictionLinks := links }
  | .explanation => { c with explanationLinks := links }

def isSentential (c : Concept) : Bool := c.term.headsSentence

/-- Link a concept to a term, unless it is linked to it already. A link to which there is no room
takes the place of another one. -/
def link {σ : Type} [DrawSource σ] (c : Concept) (kind : LinkKind) (target : Term)
    (priority : Double) (draws : σ) : Concept × σ :=
  let bag := c.links kind
  let key := target.text
  if bag.contains key then (c, draws)
  else
    let (_, bag, draws) := bag.put key target .default draws
    (c.withLinks kind (bag.setPriority key priority), draws)

@[simp] theorem links_withLinks (c : Concept) (kind kind' : LinkKind) (bag : Bag Term) :
    (c.withLinks kind bag).links kind' = if kind = kind' then bag else c.links kind' := by
  cases kind <;> cases kind' <;> rfl

@[simp] theorem term_withLinks (c : Concept) (kind : LinkKind) (bag : Bag Term) :
    (c.withLinks kind bag).term = c.term := by
  cases kind <;> rfl

end Concept

/-! ## Memory -/

/-- The concepts of a reasoner. -/
structure Memory where
  concepts : Bag Concept
deriving Inhabited

namespace Memory

def empty (settings : Settings) : Memory := ⟨.empty settings.conceptCapacity settings.bagLevels⟩

def size (m : Memory) : Nat := m.concepts.size

def holds (m : Memory) (t : Term) : Bool := m.concepts.contains t.text

def concept? (m : Memory) (t : Term) : Option Concept := (m.concepts.get? t.text).map Item.value

def toList (m : Memory) : List Concept := m.concepts.toList.map fun (_, item) => item.value

def modify (m : Memory) (t : Term) (f : Concept → Concept) : Memory :=
  ⟨m.concepts.modify t.text f⟩

/-! ### Attention -/

def activate (m : Memory) (settings : Settings) (t : Term) : Memory :=
  ⟨m.concepts.strengthenPriority t.text settings.activation⟩

def strengthenQuality (m : Memory) (t : Term) : Memory := ⟨m.concepts.strengthenQuality t.text⟩

def setQuality (m : Memory) (t : Term) (quality : Double) : Memory :=
  ⟨m.concepts.setQuality t.text quality⟩

def decay (m : Memory) (t : Term) (share : Double) : Memory := ⟨m.concepts.decay t.text share⟩

variable {σ : Type} [DrawSource σ]

def draw (m : Memory) (draws : σ) : Option Concept × σ :=
  let (found, draws) := m.concepts.peek draws
  (found.map fun (_, item) => item.value, draws)

/-- The concept at the end of a link that is drawn by its priority. -/
def follow (m : Memory) (c : Concept) (kind : LinkKind) (draws : σ) : Option Concept × σ :=
  let (found, draws) := (c.links kind).peek draws
  (found.bind fun (_, item) => m.concept? item.value, draws)

/-! ### Conceptualization -/

def partPriority : Double := 0.5

def sidePriority : Double := 0.99

def link (source : Term) (kind : LinkKind) (target : Term) (priority : Double)
    (m : Memory × σ) : Memory × σ :=
  match m.1.concept? source with
  | none => m
  | some c =>
    let (c, draws) := c.link kind target priority m.2
    (m.1.modify source fun _ => c, draws)

/-- Link a term and a part of it to each other, unless they are linked already. -/
def linkPart (whole part : Term) (m : Memory × σ) : Memory × σ :=
  if (m.1.concept? whole).any fun c => c.termLinks.contains part.text then m
  else
    let m := link whole .term part partPriority m
    let m := link part .term whole partPriority m
    let m := link whole .subterm part partPriority m
    link part .superterm whole partPriority m

def linkSides (t : Term) (m : Memory × σ) : Memory × σ :=
  match t with
  | .statement subject copula predicate _ =>
    if copula.isFirstOrder then m
    else
      link predicate .explanation t sidePriority (link subject .prediction t sidePriority m)
  | _ => m

/-- Make a concept for a term whose parts have been conceptualized, and link it to them. -/
def introduce (settings : Settings) (t : Term) (m : Memory × σ) : Memory × σ :=
  let (_, concepts, draws) := m.1.concepts.put t.text (.empty settings t) .default m.2
  let parts := t.components.filter fun part => !part.isVariable
  linkSides t (parts.foldl (fun m part => linkPart t part m) (⟨concepts⟩, draws))

mutual

/-- Make sure that a term has a concept, and each of its parts before it. -/
def conceptualize (settings : Settings) : Term → Memory × σ → Memory × σ
  | .var .., m => m
  | .atom name, m =>
    if m.1.holds (.atom name) then m else introduce settings (.atom name) m
  | .compound connector operands intervals, m =>
    let t := Term.compound connector operands intervals
    if m.1.holds t then m else introduce settings t (conceptualizeAll settings operands m)
  | .statement subject copula predicate interval, m =>
    let t := Term.statement subject copula predicate interval
    if m.1.holds t then m
    else
      introduce settings t
        (conceptualize settings predicate (conceptualize settings subject m))

def conceptualizeAll (settings : Settings) : List Term → Memory × σ → Memory × σ
  | [], m => m
  | t :: ts, m => conceptualizeAll settings ts (conceptualize settings t m)

end

end Memory

/-! ## Related concepts

A statement is related to others through what they share. From a statement about terms the way
leads over one of its parts: from a name, or from a compound of terms, on to what else this is a
part of; a part that there can be sentences about is itself related. From a statement about
statements it leads to another one with the same subject or predicate.
-/

namespace Memory

variable {σ : Type} [DrawSource σ]

def throughPart (m : Memory) (part : Concept) (draws : σ) : Option Concept × σ :=
  match part.term with
  | .atom _ => m.follow part .term draws
  | .compound connector _ _ =>
    if connector.isFirstOrder then
      let (found, draws) := m.follow part .term draws
      (found.filter fun c => c.term.isStatement, draws)
    else (some part, draws)
  | .statement .. => (some part, draws)
  | .var .. => (none, draws)

/-- A concept related through a side of a statement about statements. When the side has links of
both kinds, either is as likely. -/
def throughSide (m : Memory) (side : Concept) (draws : σ) : Option Concept × σ :=
  match side.predictionLinks.isEmpty, side.explanationLinks.isEmpty with
  | true, true => (none, draws)
  | false, true => m.follow side .prediction draws
  | true, false => m.follow side .explanation draws
  | false, false =>
    let (heads, draws) := DrawSource.coin draws
    m.follow side (if heads then .prediction else .explanation) draws

/-- One attempt to find a concept related to a statement. -/
def attemptRelated (m : Memory) (t : Term) (c : Concept) (draws : σ) : Option Concept × σ :=
  match m.follow c .term draws with
  | (none, draws) => (none, draws)
  | (some shared, draws) =>
    let (found, draws) :=
      if t.isFirstOrder then m.throughPart shared draws else m.throughSide shared draws
    (found.filter fun r => r.term != t, draws)

def attemptsRelated (m : Memory) (t : Term) (c : Concept) :
    (attempts : Nat) → σ → Option Concept × σ
  | 0, draws => (none, draws)
  | attempts + 1, draws =>
    match m.attemptRelated t c draws with
    | (some found, draws) => (some found, draws)
    | (none, draws) => m.attemptsRelated t c attempts draws

/-- A concept related to the statement `t`. -/
def related (m : Memory) (settings : Settings) (t : Term) (draws : σ) : Option Concept × σ :=
  match m.concept? t with
  | none => (none, draws)
  | some c =>
    if c.termLinks.isEmpty then (none, draws)
    else m.attemptsRelated t c settings.relatedAttempts draws

end Memory

end NonAxiomatic
