import NonAxiomatic.Symbol

/-!
# Terms

The expressions of the term logic: names, variables, compounds and statements. The intervals of
temporal compounds and statements belong to a term, but not to its text.

Two terms are the same term when they have the same text (`Term.text`), and `==` on terms means
this. Terms are put together by `Term.compose` and `Term.relate`, which sort what may change
places, so that two ways of writing one set, one conjunction or one similarity have one text.

* `stableSort_perm`: sorting only rearranges.
* `pairwise_stableSort`: the result is in order, for a total and transitive comparison.
* `stableSort_of_pairwise`: a list in order is not changed.
* `stableSort_append`: an element that comes last stays there if all others may precede it.
* `Term.beq_iff_text_eq`: `==` compares texts.
* `Term.texts_eq_map`, `Term.complexities_eq_foldr`: the parts of a compound one by one.
* `Term.compose_of_not_isSet`: what `compose` does with the operands of a connector.
* `Term.negated_compose`: negating a negation takes it away.
* `Term.eq_of_relation?`: the parts of a statement make it up.
-/

namespace NonAxiomatic

/-! ## Stable sorting

Insertion sort: an element goes in front of the first one that it may precede, so that elements
which may precede each other keep their order.
-/

section

variable {α : Type}

/-- Insert in front of the first element that `x` may precede. -/
def insertSorted (le : α → α → Bool) (x : α) : List α → List α
  | [] => [x]
  | y :: ys => if le x y then x :: y :: ys else y :: insertSorted le x ys

/-- Sort by `le`, keeping the order of elements that may precede each other. -/
def stableSort (le : α → α → Bool) (xs : List α) : List α :=
  xs.foldr (insertSorted le) []

theorem insertSorted_perm (le : α → α → Bool) (x : α) (xs : List α) :
    (insertSorted le x xs).Perm (x :: xs) := by
  induction xs with
  | nil => exact .refl _
  | cons y ys ih =>
    simp only [insertSorted]
    split
    · exact .refl _
    · exact (ih.cons y).trans (.swap x y ys)

theorem stableSort_perm (le : α → α → Bool) (xs : List α) : (stableSort le xs).Perm xs := by
  induction xs with
  | nil => exact .refl _
  | cons x xs ih => exact (insertSorted_perm le x _).trans (ih.cons x)

@[simp] theorem mem_stableSort {le : α → α → Bool} {x : α} {xs : List α} :
    x ∈ stableSort le xs ↔ x ∈ xs := (stableSort_perm le xs).mem_iff

@[simp] theorem length_stableSort (le : α → α → Bool) (xs : List α) :
    (stableSort le xs).length = xs.length := (stableSort_perm le xs).length_eq

theorem pairwise_insertSorted {le : α → α → Bool} (trans : ∀ a b c, le a b → le b c → le a c)
    (total : ∀ a b, le a b || le b a) (x : α) {xs : List α}
    (h : xs.Pairwise fun a b => le a b) : (insertSorted le x xs).Pairwise fun a b => le a b := by
  induction xs with
  | nil => simp [insertSorted]
  | cons y ys ih =>
    obtain ⟨hy, hys⟩ := List.pairwise_cons.1 h
    simp only [insertSorted]
    split
    · rename_i hxy
      refine List.pairwise_cons.2 ⟨fun z hz => ?_, h⟩
      rcases List.mem_cons.1 hz with rfl | hz
      · exact hxy
      · exact trans _ _ _ hxy (hy z hz)
    · rename_i hxy
      refine List.pairwise_cons.2 ⟨fun z hz => ?_, ih hys⟩
      rcases List.mem_cons.1 ((insertSorted_perm le x ys).mem_iff.1 hz) with rfl | hz
      · have := total z y
        simp_all
      · exact hy z hz

theorem pairwise_stableSort {le : α → α → Bool} (trans : ∀ a b c, le a b → le b c → le a c)
    (total : ∀ a b, le a b || le b a) (xs : List α) :
    (stableSort le xs).Pairwise fun a b => le a b := by
  induction xs with
  | nil => exact .nil
  | cons x xs ih => exact pairwise_insertSorted trans total x ih

theorem stableSort_of_pairwise {le : α → α → Bool} {xs : List α}
    (h : xs.Pairwise fun a b => le a b) : stableSort le xs = xs := by
  induction xs with
  | nil => rfl
  | cons x xs ih =>
    obtain ⟨hx, hxs⟩ := List.pairwise_cons.1 h
    show insertSorted le x (stableSort le xs) = x :: xs
    rw [ih hxs]
    cases xs with
    | nil => rfl
    | cons y ys => simp [insertSorted, hx y (by simp)]

end

/-! ## Terms -/

inductive VariableKind where
  /-- Stands for any term: `#x`. -/
  | independent
  /-- Stands for some term that depends on others: `#y(#x)`. -/
  | dependent
  /-- Stands for the term that is asked for: `?x`. -/
  | query
deriving DecidableEq, Repr, Inhabited

def VariableKind.symbol : VariableKind → Char
  | query => '?'
  | independent | dependent => '#'

/-- An expression of the term logic. -/
inductive Term where
  | atom (name : String)
  | var (kind : VariableKind) (name : String) (dependencies : List Term)
  /-- A connector over its operands, with the time gaps between them. -/
  | compound (connector : Connector) (operands : List Term) (intervals : List UInt32)
  /-- A relation between two terms, with the time gap between them. -/
  | statement (subject : Term) (copula : Copula) (predicate : Term) (interval : UInt32)
deriving Inhabited

namespace Term

/-! ### Text -/

mutual

/-- The canonical text of a term, which is also its identity. -/
def text : Term → String
  | atom name => name
  | var kind name dependencies =>
    if dependencies.isEmpty then kind.symbol.toString ++ name
    else kind.symbol.toString ++ name ++ "(" ++ ",".intercalate (texts dependencies) ++ ")"
  | compound connector operands _ =>
    match connector.closing? with
    | some close => connector.symbol ++ ",".intercalate (texts operands) ++ close.toString
    | none => "(" ++ connector.symbol ++ "," ++ ",".intercalate (texts operands) ++ ")"
  | statement subject copula predicate _ =>
    "(" ++ subject.text ++ " " ++ copula.symbol ++ " " ++ predicate.text ++ ")"

def texts : List Term → List String
  | [] => []
  | t :: ts => t.text :: texts ts

end

theorem texts_eq_map (ts : List Term) : texts ts = ts.map text := by
  induction ts with
  | nil => rfl
  | cons t ts ih => simp [texts, ih]

instance : BEq Term where
  beq s t := s.text == t.text

theorem beq_iff_text_eq {s t : Term} : (s == t) = true ↔ s.text = t.text := by
  show (s.text == t.text) = true ↔ _
  exact beq_iff_eq

instance : ReflBEq Term where
  rfl := by simp [beq_iff_text_eq]

instance : PartialEquivBEq Term where
  symm h := beq_iff_text_eq.2 (beq_iff_text_eq.1 h).symm
  trans h k := beq_iff_text_eq.2 ((beq_iff_text_eq.1 h).trans (beq_iff_text_eq.1 k))

/-- Whether `s` may stand before `t` in an order-invariant compound: by text. -/
def precedes (s t : Term) : Bool := s.text ≤ t.text

/-! ### Size and shape -/

mutual

/-- One for every name, variable, connector and copula. -/
def complexity : Term → Nat
  | atom _ => 1
  | var _ _ dependencies => 1 + dependencies.length
  | compound _ operands _ => 1 + complexities operands
  | statement subject _ predicate _ => 1 + subject.complexity + predicate.complexity

def complexities : List Term → Nat
  | [] => 0
  | t :: ts => t.complexity + complexities ts

end

theorem complexities_eq_foldr (ts : List Term) :
    complexities ts = ts.foldr (fun t n => t.complexity + n) 0 := by
  induction ts with
  | nil => rfl
  | cons t ts ih => simp [complexities, ih]

def components : Term → List Term
  | atom _ | var .. => []
  | compound _ operands _ => operands
  | statement subject _ predicate _ => [subject, predicate]

def isVariable : Term → Bool
  | var .. => true
  | _ => false

def isCompound : Term → Bool
  | compound .. => true
  | _ => false

def isStatement : Term → Bool
  | statement .. => true
  | _ => false

def connector? : Term → Option Connector
  | compound connector _ _ => some connector
  | _ => none

/-- Names and variables are of first order; compounds and statements follow their symbol. -/
def isFirstOrder : Term → Bool
  | atom _ | var .. => true
  | compound connector _ _ => connector.isFirstOrder
  | statement _ copula _ _ => copula.isFirstOrder

/-- The terms that a sentence can be about: statements and combinations of statements. -/
def headsSentence : Term → Bool
  | statement .. => true
  | compound connector _ _ => !connector.isFirstOrder
  | atom _ | var .. => false

def isNegation (t : Term) : Bool := t.connector? == some .negation

def isConjunction (t : Term) : Bool := t.connector?.any Connector.isConjunction

/-- Whether a variable occurs in the term: only variables bring their marks into a text. -/
def mentionsVariable (t : Term) : Bool := t.text.toList.any fun c => c == '#' || c == '?'

/-! ### Operations -/

def selfName : String := "SELF"

def isSelf : Term → Bool
  | compound .extensionalSet [t] _ => t.text == selfName
  | _ => false

mutual

/-- Whether the term can be carried out: a statement about a product that starts with the
reasoner itself, or a compound of two or more such terms. -/
def isOperation : Term → Bool
  | atom _ | var .. => false
  | compound _ operands _ => 1 < operands.length && allOperations operands
  | statement (compound .product (first :: _) _) _ _ _ => first.isSelf
  | statement .. => false

def allOperations : List Term → Bool
  | [] => true
  | t :: ts => t.isOperation && allOperations ts

end

/-- Whether an operation is to be found in the term: itself, an operand of it, or within a side
of a higher-order statement. -/
def containsOperation : Term → Bool
  | atom _ | var .. => false
  | compound _ operands _ => operands.any isOperation
  | statement subject copula predicate interval =>
    (statement subject copula predicate interval).isOperation ||
      (!copula.isFirstOrder && (subject.containsOperation || predicate.containsOperation))

/-! ### Conjuncts -/

/-- The operands of a conjunction; any other term is its own only conjunct. -/
def conjuncts : Term → List Term
  | compound connector operands intervals =>
    if connector.isConjunction then operands else [compound connector operands intervals]
  | t => [t]

/-! ## Building terms

The constructors through which all terms come into being. They check names, spell a set of
several elements as an intersection of singletons, fit the intervals of a compound to its
operands, and sort what may change places.
-/

def ofName (name : String) : Except SyntaxError Term :=
  if name.isEmpty then .error .emptyAtom
  else match name.toList.find? fun c => !isNameChar c with
    | some c => .error (.badAtom c name)
    | none => .ok (atom name)

def ofVariable (kind : VariableKind) (name : String) (dependencies : List Term) :
    Except SyntaxError Term :=
  if name.isEmpty || !name.toList.all isNameChar then .error (.badVariable name)
  else .ok (var kind name dependencies)

/-- A list of length `n`: cut off, or filled up with `value`. -/
def resize (n : Nat) (value : UInt32) (xs : List UInt32) : List UInt32 :=
  xs.take n ++ List.replicate (n - xs.length) value

/-- The intervals that a compound keeps: one for each gap between the operands of a sequence, 1
where none is given; 0 for each gap between simultaneous operands; otherwise none. -/
def fitIntervals (connector : Connector) (operands : List Term) (intervals : List UInt32) :
    List UInt32 :=
  let gaps := operands.length - 1
  match connector with
  | .sequentialConjunction => resize gaps 1 intervals
  | .parallelConjunction => List.replicate gaps 0
  | _ => []

def composeFlat (connector : Connector) (operands : List Term) (intervals : List UInt32) :
    Term :=
  compound connector
    (if connector.isOrderInvariant then stableSort precedes operands else operands)
    (fitIntervals connector operands intervals)

/-- The compound of a connector and its operands. A set of several elements is the intersection
of their singleton sets. -/
def compose (connector : Connector) (operands : List Term) (intervals : List UInt32) : Term :=
  if connector.isSet && 1 < operands.length then
    composeFlat connector.joined (operands.map fun t => composeFlat connector [t] []) []
  else composeFlat connector operands intervals

/-- The statement of a copula and its two sides, which are sorted when they may change places. -/
def relate (subject : Term) (copula : Copula) (predicate : Term) (interval : UInt32) : Term :=
  if copula.isSymmetric && predicate.text < subject.text then
    statement predicate copula subject interval
  else statement subject copula predicate interval

/-- The negation of a term; negating a negation takes it away. -/
def negated : Term → Term
  | compound .negation [t] _ => t
  | t => compose .negation [t] []

def operation (name : String) : Except SyntaxError Term := do
  let self ← ofName selfName
  let subject := compose .product [compose .extensionalSet [self] []] []
  let predicate ← ofName name
  return relate subject .inheritance predicate 0

theorem compose_of_not_isSet {connector : Connector} (h : connector.isSet = false)
    (operands : List Term) (intervals : List UInt32) :
    compose connector operands intervals = composeFlat connector operands intervals := by
  simp [compose, h]

@[simp] theorem negated_compose (t : Term) : (compose .negation [t] []).negated = t := by
  simp [compose, composeFlat, Connector.isSet, Connector.isOrderInvariant, stableSort,
    insertSorted, negated]

@[simp] theorem length_resize (n : Nat) (value : UInt32) (xs : List UInt32) :
    (resize n value xs).length = n := by
  simp [resize]; omega

end Term

/-! ## Relations

A statement taken apart into its two sides and what relates them; and what there is to take out of
negations and conjunctions.
-/

inductive Side where
  | subject
  | predicate
deriving DecidableEq, Repr, Inhabited

def Side.opposite : Side → Side
  | subject => predicate
  | predicate => subject

/-- The parts of a statement. -/
structure Relation where
  subject : Term
  copula : Copula
  predicate : Term
  interval : UInt32
deriving Inhabited

namespace Relation

def isSymmetric (r : Relation) : Bool := r.copula.isSymmetric

def isFirstOrder (r : Relation) : Bool := r.copula.isFirstOrder

def on (r : Relation) : Side → Term
  | .subject => r.subject
  | .predicate => r.predicate

def across? (r : Relation) (t : Term) : Option Term :=
  if t == r.predicate then some r.subject
  else if t == r.subject then some r.predicate
  else none

/-- Whether two statements could only restate each other when put together. -/
def restates (a b : Relation) : Bool :=
  (a.subject == b.predicate && a.predicate == b.subject) ||
    (a.subject == b.subject && a.predicate == b.predicate && a.isSymmetric != b.isSymmetric)

end Relation

namespace Term

def relation? : Term → Option Relation
  | statement subject copula predicate interval => some { subject, copula, predicate, interval }
  | _ => none

theorem eq_of_relation? {t : Term} {r : Relation} (h : t.relation? = some r) :
    t = statement r.subject r.copula r.predicate r.interval := by
  cases t <;> simp only [relation?, Option.some.injEq, reduceCtorEq] at h
  subst h
  rfl

def denied? : Term → Option Term
  | compound .negation operands _ => operands.head?
  | _ => none

/-- The conjuncts of a term that are not among those of another one. -/
def extraConjuncts (t u : Term) : List Term :=
  t.conjuncts.filter fun c => !u.conjuncts.contains c

/-- A conjunction with its first conjunct equal to `removed` taken out. A single conjunct that is
left stands alone. The gap after the conjunct goes with it, or the one before the last. -/
def without? (t removed : Term) : Option Term :=
  match t with
  | compound connector operands intervals =>
    if !connector.isConjunction then none
    else match operands.findIdx? (· == removed) with
      | none => none
      | some i =>
        match operands.eraseIdx i with
        | [] => none
        | [last] => some last
        | rest => some (compose connector rest (intervals.eraseIdx (min i (intervals.length - 1))))
  | _ => none

/-! ## Interval layouts

A term's text leaves its intervals out. Where only the text is stored, they are stored beside it
as one flat list: `Term.layout` lists a statement's interval, or a compound's intervals, and then
those of the parts from left to right; `Term.withLayout?` gives a term the intervals of a list of
fitting length.
-/

mutual

/-- Every interval in the term: its own first, then those of its parts from left to right. -/
def layout : Term → List UInt32
  | atom _ | var .. => []
  | compound _ operands intervals => intervals ++ layouts operands
  | statement subject _ predicate interval => interval :: subject.layout ++ predicate.layout

def layouts : List Term → List UInt32
  | [] => []
  | t :: ts => t.layout ++ layouts ts

end

/-- The first `n` elements and the others, when there are that many. -/
def splitAt? (n : Nat) (xs : List UInt32) : Option (List UInt32 × List UInt32) :=
  if n ≤ xs.length then some (xs.take n, xs.drop n) else none

mutual

/-- The term with intervals taken from the front of a list, and what is left of the list. -/
def takeLayout : Term → List UInt32 → Option (Term × List UInt32)
  | atom name, values => some (atom name, values)
  | var kind name dependencies, values => some (var kind name dependencies, values)
  | compound connector operands intervals, values => do
    let (own, values) ← splitAt? intervals.length values
    let (operands, values) ← takeLayouts operands values
    return (compose connector operands own, values)
  | statement _ _ _ _, [] => none
  | statement subject copula predicate _, interval :: values => do
    let (subject, values) ← takeLayout subject values
    let (predicate, values) ← takeLayout predicate values
    return (relate subject copula predicate interval, values)

def takeLayouts : List Term → List UInt32 → Option (List Term × List UInt32)
  | [], values => some ([], values)
  | t :: ts, values => do
    let (t, values) ← takeLayout t values
    let (ts, values) ← takeLayouts ts values
    return (t :: ts, values)

end

/-- The same term with the intervals of a list, if the list fits it. -/
def withLayout? (t : Term) (values : List UInt32) : Option Term :=
  match t.takeLayout values with
  | some (t, []) => some t
  | _ => none

end Term

end NonAxiomatic
