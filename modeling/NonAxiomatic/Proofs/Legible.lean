import NonAxiomatic.Proofs.Formed
import NonAxiomatic.Proofs.Scanning

/-!
# Legible terms

When the text of a term can be read again is decided by its shape. A term is legible
(`Term.isLegible`) if no operand of a compound in it is a name made up of digits, which would be
read as a time gap, and if no property copula stands within an operand, where its `]` would be
taken for the end of a set. The nesting of a term (`Term.nesting`) is the depth of brackets that its
text needs. Variables are read back if they depend on plain ones only (`Term.hasPlainVariables`);
the brackets of their dependencies add to the depth (`Term.bracketDepth`).

The text is taken as it is read, without blank characters (`Term.spelling`).

* `Term.skippedFrom_spelling`: no copula is found within a term.
* `Term.countP_spelling`: the brackets of a term match in number, up to its property copulas.
* `Term.splitOperands_spelling`: operands are told apart exactly if there are no property copulas in
  them.
-/

namespace NonAxiomatic

/-- Whether the last character of a copula is a bracket. -/
def Copula.endsInBracket : Copula → Bool
  | property | instanceProperty => true
  | _ => false

namespace Term

open Text

/-! ## Shape -/

mutual

/-- How deep brackets are nested in the text of a term. -/
def nesting : Term → Nat
  | atom _ | var .. => 0
  | compound _ operands _ => nestings operands + 1
  | statement subject _ predicate _ => max subject.nesting predicate.nesting + 1

/-- The greatest nesting of several terms. -/
def nestings : List Term → Nat
  | [] => 0
  | t :: ts => max t.nesting (nestings ts)

end

mutual

/-- How deep brackets are nested in the text of a term, those around the dependencies of variables
among them. -/
def bracketDepth : Term → Nat
  | atom _ => 0
  | var _ _ dependencies => if dependencies.isEmpty then 0 else bracketDepths dependencies + 1
  | compound _ operands _ => bracketDepths operands + 1
  | statement subject _ predicate _ => max subject.bracketDepth predicate.bracketDepth + 1

/-- The greatest depth of several terms. -/
def bracketDepths : List Term → Nat
  | [] => 0
  | t :: ts => max t.bracketDepth (bracketDepths ts)

end

mutual

/-- How many property copulas occur in a term. -/
def properties : Term → Nat
  | atom _ | var .. => 0
  | compound _ operands _ => allProperties operands
  | statement subject copula predicate _ =>
    subject.properties + (if copula.endsInBracket then 1 else 0) + predicate.properties

/-- How many property copulas occur in several terms. -/
def allProperties : List Term → Nat
  | [] => 0
  | t :: ts => t.properties + allProperties ts

end

mutual

/-- How many brackets in the text of a term belong to a property copula, within the dependencies of
variables as well. -/
def strayBrackets : Term → Nat
  | atom _ => 0
  | var _ _ dependencies => allStrayBrackets dependencies
  | compound _ operands _ => allStrayBrackets operands
  | statement subject copula predicate _ =>
    subject.strayBrackets + (if copula.endsInBracket then 1 else 0) + predicate.strayBrackets

/-- How many such brackets there are in several terms. -/
def allStrayBrackets : List Term → Nat
  | [] => 0
  | t :: ts => t.strayBrackets + allStrayBrackets ts

end

/-- Whether a term is a name made up of digits. -/
def isNumber : Term → Bool
  | atom name => name.toList.all Char.isDigit
  | _ => false

mutual

/-- Whether the text of a term shows what its parts are. -/
def isLegible : Term → Bool
  | atom _ | var .. => true
  | compound _ operands _ => areLegible operands
  | statement subject _ predicate _ => subject.isLegible && predicate.isLegible

/-- Whether terms are shown by their texts also as operands. -/
def areLegible : List Term → Bool
  | [] => true
  | t :: ts => !t.isNumber && t.properties == 0 && t.isLegible && areLegible ts

end

/-- The kind that a variable is read with: without dependencies it is an independent one, unless it
asks for a term. -/
def shownKind (kind : VariableKind) (dependencies : List Term) : VariableKind :=
  if kind = .query then .query
  else if dependencies.isEmpty then .independent
  else .dependent

theorem markedKind_symbol (kind : VariableKind) (dependencies : List Term) :
    markedKind kind.symbol dependencies = shownKind kind dependencies := by
  cases kind <;> rfl

/-- Whether a term is a variable without dependencies, of the kind that it is read with. -/
def isPlainVariable : Term → Bool
  | var kind _ dependencies => kind == shownKind kind [] && dependencies.isEmpty
  | _ => false

mutual

/-- Whether all variables of a term are of the kinds that they are read with, and depend only on
variables without dependencies. -/
def hasPlainVariables : Term → Bool
  | atom _ => true
  | var kind _ dependencies =>
    kind == shownKind kind dependencies && dependencies.all isPlainVariable
  | compound _ operands _ => allPlainVariables operands
  | statement subject _ predicate _ => subject.hasPlainVariables && predicate.hasPlainVariables

/-- Whether this is so for several terms. -/
def allPlainVariables : List Term → Bool
  | [] => true
  | t :: ts => t.hasPlainVariables && allPlainVariables ts

end

theorem isPlainVariable_iff {t : Term} : t.isPlainVariable = true ↔
    ∃ kind name, t = var kind name [] ∧ kind = shownKind kind [] := by
  cases t with
  | var kind name dependencies =>
    simp only [isPlainVariable, Bool.and_eq_true, beq_iff_eq, List.isEmpty_iff]
    constructor
    · rintro ⟨hkind, rfl⟩
      exact ⟨kind, name, rfl, hkind⟩
    · rintro ⟨_, _, heq, hkind⟩
      cases heq
      exact ⟨hkind, rfl⟩
  | _ => simp [isPlainVariable]

theorem allPlainVariables_iff {ts : List Term} :
    allPlainVariables ts = true ↔ ∀ t ∈ ts, t.hasPlainVariables = true := by
  induction ts with
  | nil => simp [allPlainVariables]
  | cons t ts ih => rw [allPlainVariables, Bool.and_eq_true, ih, List.forall_mem_cons]

theorem Ground.hasPlainVariables {t : Term} (h : t.Ground) : t.hasPlainVariables = true := by
  induction h using Ground.induct with
  | atom => rfl
  | compound _ ih => exact allPlainVariables_iff.2 ih
  | statement _ ihs ihp => rw [Term.hasPlainVariables, ihs, ihp]; rfl

theorem nestings_lt_iff {ts : List Term} {n : Nat} (hn : 0 < n) :
    nestings ts < n ↔ ∀ t ∈ ts, t.nesting < n := by
  induction ts with
  | nil => simp [nestings, hn]
  | cons t ts ih => rw [nestings, Nat.max_lt, ih, List.forall_mem_cons]

theorem bracketDepths_lt_iff {ts : List Term} {n : Nat} (hn : 0 < n) :
    bracketDepths ts < n ↔ ∀ t ∈ ts, t.bracketDepth < n := by
  induction ts with
  | nil => simp [bracketDepths, hn]
  | cons t ts ih => rw [bracketDepths, Nat.max_lt, ih, List.forall_mem_cons]

theorem bracketDepths_eq {ts : List Term} (h : ∀ t ∈ ts, t.bracketDepth = t.nesting) :
    bracketDepths ts = nestings ts := by
  induction ts with
  | nil => rfl
  | cons t ts ih => rw [bracketDepths, nestings, h t (by simp), ih fun u hu => h u (by simp [hu])]

theorem Ground.bracketDepth_eq {t : Term} (h : t.Ground) : t.bracketDepth = t.nesting := by
  induction h using Ground.induct with
  | atom => rfl
  | compound _ ih => rw [bracketDepth, nesting, bracketDepths_eq ih]
  | statement _ ihs ihp => rw [bracketDepth, nesting, ihs, ihp]

theorem allStrayBrackets_eq_zero_iff {ts : List Term} :
    allStrayBrackets ts = 0 ↔ ∀ t ∈ ts, t.strayBrackets = 0 := by
  induction ts with
  | nil => simp [allStrayBrackets]
  | cons t ts ih => rw [allStrayBrackets, Nat.add_eq_zero_iff, ih, List.forall_mem_cons]

mutual

/-- In what plain variables depend on, there are no property copulas. -/
theorem strayBrackets_of_plain :
    (t : Term) → t.hasPlainVariables = true → t.strayBrackets = t.properties
  | atom _, _ => rfl
  | var kind name dependencies, h => by
    rw [hasPlainVariables, Bool.and_eq_true, List.all_eq_true] at h
    rw [strayBrackets, properties, allStrayBrackets_eq_zero_iff]
    intro t ht
    obtain ⟨_, _, rfl, _⟩ := isPlainVariable_iff.1 (h.2 t ht)
    rfl
  | compound _ operands _, h => allStrayBrackets_of_plain operands h
  | statement subject _ predicate _, h => by
    rw [hasPlainVariables, Bool.and_eq_true] at h
    rw [strayBrackets, properties, strayBrackets_of_plain subject h.1,
      strayBrackets_of_plain predicate h.2]

theorem allStrayBrackets_of_plain :
    (ts : List Term) → allPlainVariables ts = true → allStrayBrackets ts = allProperties ts
  | [], _ => rfl
  | t :: ts, h => by
    rw [allPlainVariables, Bool.and_eq_true] at h
    rw [allStrayBrackets, allProperties, strayBrackets_of_plain t h.1,
      allStrayBrackets_of_plain ts h.2]

end

theorem areLegible_iff {ts : List Term} : areLegible ts = true ↔
    ∀ t ∈ ts, t.isNumber = false ∧ t.properties = 0 ∧ t.isLegible = true := by
  induction ts with
  | nil => simp [areLegible]
  | cons t ts ih =>
    rw [areLegible, List.forall_mem_cons, Bool.and_eq_true, ih]
    simp [and_assoc]

/-! ## Text without blank characters -/

/-- The characters of a term as they are read. -/
def spelling (t : Term) : List Char := compact t.text.toList

theorem toNat_of_isNameChar {c : Char} (h : isNameChar c = true) :
    0x30 ≤ c.toNat ∧ c.toNat < 0x80 := by
  have halpha : c.isAlpha = (c.isUpper || c.isLower) := rfl
  have hupper : c.isUpper = decide (c.val ≥ 'A'.val ∧ c.val ≤ 'Z'.val) := rfl
  have hlower : c.isLower = (decide (c.val ≥ 'a'.val) && decide (c.val ≤ 'z'.val)) := rfl
  simp only [isNameChar, Char.isAlphanum, halpha, hupper, hlower, Char.isDigit,
    Bool.or_eq_true, Bool.and_eq_true, decide_eq_true_eq, beq_iff_eq, ge_iff_le,
    UInt32.le_iff_toNat_le] at h
  have hval : c.toNat = c.val.toNat := rfl
  rcases h with (((h | h) | h) | rfl) | rfl
  · simp at h; omega
  · simp at h; omega
  · simp at h; omega
  · decide
  · decide

/-- There are no blank characters in a name. -/
theorem compact_name {cs : List Char} (h : ∀ c ∈ cs, isNameChar c = true) : compact cs = cs := by
  rw [compact, List.filter_eq_self]
  intro c hc
  obtain ⟨hlow, hhigh⟩ := toNat_of_isNameChar (h c hc)
  simp only [isBlank, Bool.not_eq_true', Bool.or_eq_false_iff, Bool.and_eq_false_iff,
    decide_eq_false_iff_not, beq_eq_false_iff_ne]
  omega

theorem compact_append (cs ds : List Char) : compact (cs ++ ds) = compact cs ++ compact ds :=
  List.filter_append _ _

theorem spelling_atom {name : String} (h : ∀ c ∈ name.toList, isNameChar c = true) :
    (atom name).spelling = name.toList := by
  rw [spelling, text, compact_name h]

theorem spelling_var {kind : VariableKind} {name : String} {dependencies : List Term}
    (h : ∀ c ∈ name.toList, isNameChar c = true) : (var kind name dependencies).spelling =
      kind.symbol :: (name.toList ++ dependencyList (dependencies.map spelling)) := by
  have hsymbol : ∀ cs, compact (kind.symbol :: cs) = kind.symbol :: compact cs := by
    cases kind <;> exact fun _ => rfl
  have hlist : compact (dependencyList (dependencies.map fun t => t.text.toList)) =
      dependencyList (dependencies.map spelling) := by
    cases dependencies with
    | nil => rfl
    | cons t ts =>
      have hopen : ∀ cs, compact ('(' :: cs) = '(' :: compact cs := fun _ => rfl
      simp only [dependencyList, List.map_eq_nil_iff, reduceCtorEq, if_false]
      rw [hopen, compact_append, compact, filter_intercalate rfl, List.map_map]
      rfl
  rw [spelling, toList_text_var, hsymbol, compact_append, compact_name h, hlist]

theorem spelling_compound (connector : Connector) (operands : List Term)
    (intervals : List UInt32) : (compound connector operands intervals).spelling =
      opening connector ++ [','].intercalate (operands.map spelling) ++ [closing connector] := by
  have hopening : compact (opening connector) = opening connector := by
    cases connector <;> rfl
  have hclosing : compact [closing connector] = [closing connector] := by
    cases connector <;> rfl
  rw [spelling, toList_text_compound, compact, List.filter_append, List.filter_append,
    filter_intercalate rfl, List.map_map]
  exact congrArg₂ _ (congrArg₂ _ hopening rfl) hclosing

theorem spelling_statement (subject : Term) (copula : Copula) (predicate : Term)
    (interval : UInt32) : (statement subject copula predicate interval).spelling =
      '(' :: (subject.spelling ++ (copula.symbol.toList ++ predicate.spelling) ++ [')']) := by
  have hsymbol : compact copula.symbol.toList = copula.symbol.toList := by
    cases copula <;> rfl
  have hblank : ∀ cs, compact (' ' :: cs) = compact cs := fun _ => rfl
  have hopen : ∀ cs, compact ('(' :: cs) = '(' :: compact cs := fun _ => rfl
  have hclose : compact [')'] = [')'] := rfl
  rw [spelling, toList_text_statement, hopen, compact_append, hblank, compact_append, hsymbol,
    hblank, compact_append, hclose]
  simp only [spelling, List.append_assoc]

/-! ## What a text shows -/

/-- Whether a character marks a variable. -/
def marksVariable (c : Char) : Bool := c == '#' || c == '?'

/-- Whether the text of a term may begin with a character. -/
def startsTerm (c : Char) : Bool := isNameChar c || c == '(' || opensSet c || marksVariable c

theorem marksVariable_symbol (kind : VariableKind) : marksVariable kind.symbol = true := by
  cases kind <;> rfl

theorem not_mem_symbol_of_startsTerm {c : Char} (h : startsTerm c = true) (k : Copula) :
    c ∉ k.symbol.toList := by
  have hsymbol : ∀ d ∈ k.symbol.toList, startsTerm d = false := by
    cases k <;> simp [Copula.symbol, startsTerm, isNameChar, opensSet, marksVariable]
  intro hc
  rw [hsymbol c hc] at h
  exact absurd h (by decide)

theorem head?_symbol_ne {c : Char} (h : c ∈ [',', '{', '}', '[', ']']) (k : Copula) :
    k.symbol.toList.head? ≠ some c := by
  cases k <;> intro hc <;> obtain rfl := Option.some.inj hc <;> exact absurd h (by decide)

theorem exists_spelling {t : Term} (h : t.Named) : ∃ c cs, t.spelling = c :: cs ∧
    startsTerm c = true ∧ ((c :: cs).all Char.isDigit = t.isNumber) := by
  cases h with
  | @atom name nonempty characters =>
    rw [spelling_atom characters]
    cases hname : name.toList with
    | nil => exact absurd (String.toList_eq_nil_iff.1 hname) nonempty
    | cons c cs =>
      have hc := characters c (by simp [hname])
      refine ⟨c, cs, rfl, by simp [startsTerm, hc], ?_⟩
      rw [isNumber, hname]
  | @var kind _ _ _ characters =>
    rw [spelling_var characters]
    cases kind <;> exact ⟨_, _, rfl, rfl, rfl⟩
  | @compound connector =>
    rw [spelling_compound]
    cases connector <;> exact ⟨_, _, rfl, rfl, rfl⟩
  | statement =>
    rw [spelling_statement]
    exact ⟨_, _, rfl, rfl, rfl⟩

theorem skippedFrom_operands {ts : List Term} (h : ∀ t ∈ ts, SkippedFrom 1 t.spelling) :
    SkippedFrom 1 ([','].intercalate (ts.map spelling)) := by
  refine forall_mem_intercalate ?_ ?_ (fun _ _ => .append) ?_
  · exact .of_plain (by simp)
  · exact .of_plain (by simp [head?_symbol_ne])
  · intro x hx
    obtain ⟨t, ht, rfl⟩ := List.mem_map.1 hx
    exact h t ht

theorem skippedFrom_name {cs : List Char} (h : ∀ c ∈ cs, isNameChar c = true) (n : Nat) :
    SkippedFrom n cs := by
  refine .of_plain ?_
  intro c hc
  have hname := h c hc
  refine ⟨?_, ?_, ?_⟩
  · rintro rfl
    exact absurd hname (by decide)
  · rintro rfl
    exact absurd hname (by decide)
  · intro k hk
    exact not_mem_symbol_of_startsTerm (by simp [startsTerm, hname]) k (List.mem_of_mem_head? hk)

/-- No copula is found within a term. -/
theorem skippedFrom_spelling {t : Term} (h : t.Named) : SkippedFrom 1 t.spelling := by
  induction h with
  | atom _ characters =>
    rw [spelling_atom characters]
    exact skippedFrom_name characters 1
  -- The symbol and the name open nothing, and the dependencies stand in brackets of their own.
  | @var kind name dependencies _ characters _ ih =>
    have hsymbol : SkippedFrom 1 [kind.symbol] := by
      refine .of_plain fun c hc => ?_
      obtain rfl := List.mem_singleton.1 hc
      refine ⟨by cases kind <;> decide, by cases kind <;> decide, fun k hk => ?_⟩
      have hstart : startsTerm kind.symbol = true := by simp [startsTerm, marksVariable_symbol]
      exact not_mem_symbol_of_startsTerm hstart k (List.mem_of_mem_head? hk)
    have hlist : SkippedFrom 1 (dependencyList (dependencies.map spelling)) := by
      unfold dependencyList
      split
      · exact .of_plain (by simp)
      · exact .brackets ((skippedFrom_operands ih).mono (by decide))
    rw [spelling_var characters]
    exact hsymbol.append ((skippedFrom_name characters 1).append hlist)
  | @compound connector operands intervals _ ih =>
    have hbody := skippedFrom_operands ih
    rw [spelling_compound]
    cases hset : connector.isSet with
    | false =>
      rw [opening_of_not_isSet hset, closing_of_not_isSet hset]
      -- What stands in round brackets is one level deeper, where any copula is passed over.
      refine .brackets (.append (.of_deep ?_) (hbody.mono (by decide)))
      intro c hc
      rcases List.mem_append.1 hc with hc | hc
      · exact connector.ne_bracket c hc
      · obtain rfl := List.mem_singleton.1 hc
        decide
    | true =>
      -- Set brackets count for nothing here, so that the operands have to be passed over
      -- themselves.
      have hends : SkippedFrom 1 (opening connector) ∧ SkippedFrom 1 [closing connector] := by
        cases connector with
        | extensionalSet | intensionalSet =>
          constructor <;> refine .of_plain fun c hc => ?_ <;> obtain rfl := List.mem_singleton.1 hc
          · exact ⟨by decide, by decide, head?_symbol_ne (by decide)⟩
          · exact ⟨by decide, by decide, head?_symbol_ne (by decide)⟩
        | _ => exact absurd hset (by decide)
      exact (hends.1.append hbody).append hends.2
  | @statement subject copula predicate interval _ _ ihs ihp =>
    rw [spelling_statement]
    refine .brackets ((ihs.mono (by decide)).append (.append ?_ (ihp.mono (by decide))))
    exact .of_deep copula.ne_bracket

theorem isBracket_of_isNameChar {c : Char} (h : isNameChar c = true) :
    opensBracket c = false ∧ closesBracket c = false ∧ c ≠ ',' := by
  refine ⟨?_, ?_, ?_⟩
  · cases hc : opensBracket c with
    | false => rfl
    | true =>
      simp only [opensBracket, opensSet, Bool.or_eq_true, beq_iff_eq] at hc
      rcases hc with rfl | rfl | rfl <;> exact absurd h (by decide)
  · cases hc : closesBracket c with
    | false => rfl
    | true =>
      simp only [closesBracket, closesSet, Bool.or_eq_true, beq_iff_eq] at hc
      rcases hc with rfl | rfl | rfl <;> exact absurd h (by decide)
  · rintro rfl
    exact absurd h (by decide)

theorem countP_operands {ts : List Term} (h : ∀ t ∈ ts,
    t.spelling.countP closesBracket = t.spelling.countP opensBracket + t.strayBrackets) :
    ([','].intercalate (ts.map spelling)).countP closesBracket =
      ([','].intercalate (ts.map spelling)).countP opensBracket + allStrayBrackets ts := by
  have hopen : [','].countP opensBracket = 0 := rfl
  have hclose : [','].countP closesBracket = 0 := rfl
  rw [countP_intercalate hopen, countP_intercalate hclose]
  induction ts with
  | nil => rfl
  | cons t ts ih =>
    have hhead := h t (by simp)
    have htail := ih fun u hu => h u (by simp [hu])
    simp only [List.map_cons, List.sum_cons, allStrayBrackets] at htail ⊢
    omega

theorem countP_name {cs : List Char} (h : ∀ c ∈ cs, isNameChar c = true) :
    cs.countP opensBracket = 0 ∧ cs.countP closesBracket = 0 := by
  rw [List.countP_eq_zero, List.countP_eq_zero]
  refine ⟨fun c hc => ?_, fun c hc => ?_⟩
  · simp [(isBracket_of_isNameChar (h c hc)).1]
  · simp [(isBracket_of_isNameChar (h c hc)).2.1]

/-- The brackets of a term match in number, but for those at the ends of property copulas. -/
theorem countP_spelling {t : Term} (h : t.Named) :
    t.spelling.countP closesBracket = t.spelling.countP opensBracket + t.strayBrackets := by
  induction h with
  | atom _ characters =>
    obtain ⟨hopen, hclose⟩ := countP_name characters
    rw [spelling_atom characters, strayBrackets, hopen, hclose]
  | @var kind name dependencies _ characters _ ih =>
    obtain ⟨hopen, hclose⟩ := countP_name characters
    have hsymbol : opensBracket kind.symbol = false ∧ closesBracket kind.symbol = false := by
      cases kind <;> exact ⟨rfl, rfl⟩
    have hlist : (dependencyList (dependencies.map spelling)).countP closesBracket =
        (dependencyList (dependencies.map spelling)).countP opensBracket +
          allStrayBrackets dependencies := by
      have hbody := countP_operands ih
      cases dependencies with
      | nil => rfl
      | cons t ts =>
        rw [dependencyList, if_neg (by simp), List.countP_cons_of_pos (p := opensBracket) rfl,
          List.countP_cons_of_neg (p := closesBracket) (by decide), List.countP_append,
          List.countP_append, hbody]
        rw [show [')'].countP closesBracket = 1 from rfl,
          show [')'].countP opensBracket = 0 from rfl]
        omega
    rw [spelling_var characters, strayBrackets, List.countP_cons_of_neg (by simp [hsymbol.2]),
      List.countP_cons_of_neg (by simp [hsymbol.1]), List.countP_append, List.countP_append,
      hopen, hclose, hlist]
    omega
  | @compound connector operands intervals _ ih =>
    have hbody := countP_operands ih
    have hends : (opening connector).countP closesBracket = 0 ∧
        (opening connector).countP opensBracket = 1 ∧
        [closing connector].countP closesBracket = 1 ∧
        [closing connector].countP opensBracket = 0 := by
      cases connector <;> exact ⟨rfl, rfl, rfl, rfl⟩
    obtain ⟨h₁, h₂, h₃, h₄⟩ := hends
    rw [spelling_compound]
    simp only [List.countP_append, h₁, h₂, h₃, h₄, hbody, strayBrackets]
    omega
  | @statement subject copula predicate interval _ _ ihs ihp =>
    have hsymbol : copula.symbol.toList.countP closesBracket =
        (if copula.endsInBracket then 1 else 0) ∧ copula.symbol.toList.countP opensBracket = 0 := by
      cases copula <;> exact ⟨rfl, rfl⟩
    rw [spelling_statement, List.countP_cons_of_pos (p := opensBracket) rfl,
      List.countP_cons_of_neg (p := closesBracket) (by decide)]
    simp only [List.countP_append, hsymbol.1, hsymbol.2, strayBrackets]
    rw [show [')'].countP closesBracket = 1 from rfl, show [')'].countP opensBracket = 0 from rfl]
    omega

theorem balancedFrom_name {cs : List Char} (h : ∀ c ∈ cs, isNameChar c = true) (n : Nat) :
    BalancedFrom n cs := by
  refine .of_plain ?_
  intro c hc
  obtain ⟨hopen, hclose, hcomma⟩ := isBracket_of_isNameChar (h c hc)
  exact ⟨hopen, hclose, fun h => absurd h hcomma⟩

theorem balancedFrom_operands {ts : List Term} (h : ∀ t ∈ ts, BalancedFrom 0 t.spelling) :
    BalancedFrom 1 ([','].intercalate (ts.map spelling)) := by
  refine forall_mem_intercalate ?_ ?_ (fun _ _ => .append) ?_
  · exact .of_plain (by simp)
  · exact .of_plain (by simp [opensBracket, closesBracket, opensSet, closesSet])
  · intro x hx
    obtain ⟨t, ht, rfl⟩ := List.mem_map.1 hx
    exact (h t ht).mono (by decide)

theorem balancedFrom_symbol (kind : VariableKind) : BalancedFrom 0 [kind.symbol] := by
  refine .of_plain fun c hc => ?_
  obtain rfl := List.mem_singleton.1 hc
  cases kind <;> decide

/-- Without property copulas no piece ends within a term. -/
theorem balancedFrom_spelling {t : Term} (h : t.Named) (hstray : t.strayBrackets = 0) :
    BalancedFrom 0 t.spelling := by
  induction h with
  | atom _ characters =>
    rw [spelling_atom characters]
    exact balancedFrom_name characters 0
  | @var kind name dependencies _ characters _ ih =>
    rw [strayBrackets, allStrayBrackets_eq_zero_iff] at hstray
    have hlist : BalancedFrom 0 (dependencyList (dependencies.map spelling)) := by
      unfold dependencyList
      split
      · exact .of_plain (by simp)
      · exact .brackets rfl ⟨rfl, rfl⟩ (balancedFrom_operands fun t ht => ih t ht (hstray t ht))
    rw [spelling_var characters]
    exact (balancedFrom_symbol kind).append ((balancedFrom_name characters 0).append hlist)
  | @compound connector operands intervals _ ih =>
    rw [strayBrackets, allStrayBrackets_eq_zero_iff] at hstray
    have hbody := balancedFrom_operands fun t ht => ih t ht (hstray t ht)
    obtain ⟨first, inner, hopening, hfirst, hinner⟩ : ∃ first inner,
        opening connector = first :: inner ∧ opensBracket first = true ∧
          ∀ c ∈ inner, opensBracket c = false ∧ closesBracket c = false ∧ (c = ',' → 0 < 1) := by
      cases connector <;> refine ⟨_, _, rfl, rfl, ?_⟩ <;>
        simp [Connector.symbol, opensBracket, closesBracket, opensSet, closesSet]
    have hlast : opensBracket (closing connector) = false ∧
        closesBracket (closing connector) = true := by
      cases connector <;> exact ⟨rfl, rfl⟩
    rw [spelling_compound, hopening]
    exact .brackets hfirst hlast (.append (.of_plain hinner) hbody)
  | @statement subject copula predicate interval _ _ ihs ihp =>
    rw [strayBrackets] at hstray
    have hs := (ihs (by omega)).mono (Nat.zero_le 1)
    have hp := (ihp (by omega)).mono (Nat.zero_le 1)
    have hsymbol : BalancedFrom 1 copula.symbol.toList := by
      refine .of_plain ?_
      cases copula with
      | property | instanceProperty =>
        simp only [Copula.endsInBracket, if_true] at hstray
        omega
      | _ => simp [Copula.symbol, opensBracket, closesBracket, opensSet, closesSet]
    rw [spelling_statement]
    exact .brackets rfl ⟨rfl, rfl⟩ (hs.append (hsymbol.append hp))

/-- The text of operands is split exactly if there is no property copula in them, and then they are
told apart. -/
theorem splitOperands_spelling {ts : List Term} (hne : ts ≠ []) (h : ∀ t ∈ ts, t.Named)
    {tokens : List (List Char)} :
    splitOperands 0 ([','].intercalate (ts.map spelling)) = some tokens ↔
      (∀ t ∈ ts, t.strayBrackets = 0) ∧ tokens = ts.map spelling := by
  have hfound : (∀ t ∈ ts, t.strayBrackets = 0) →
      splitOperands 0 ([','].intercalate (ts.map spelling)) = some (ts.map spelling) := by
    intro hstray
    apply splitOperands_intercalate (by simpa using hne)
    intro x hx
    obtain ⟨t, ht, rfl⟩ := List.mem_map.1 hx
    exact balancedFrom_spelling (h t ht) (hstray t ht)
  constructor
  · intro hsplit
    have hbrackets := countP_of_splitOperands hsplit
    have hcount := countP_operands fun t ht => countP_spelling (h t ht)
    have hnone : allStrayBrackets ts = 0 := by omega
    have hstray := allStrayBrackets_eq_zero_iff.1 hnone
    exact ⟨hstray, Option.some.inj (hsplit.symm.trans (hfound hstray))⟩
  · rintro ⟨hstray, rfl⟩
    exact hfound hstray

end Term

end NonAxiomatic
