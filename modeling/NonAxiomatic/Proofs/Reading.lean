import Mathlib.Data.List.Forall2
import NonAxiomatic.Proofs.Spelling
import NonAxiomatic.Reader

/-!
# What is read

When the reading of a text succeeds, and what it then gives: one statement for each of the
functions that read, with the function that reads the parts left open.

* `Term.readStatement_eq_ok`, `Term.readOperand_eq_ok`, `Term.readCompound_eq_ok`: the kinds of
  terms that have parts.
* `Term.readVariable_eq_ok`, `Term.readVariable_append`: variables.
* `Term.readAs_of_readAt`: which of them a text is.
-/

namespace NonAxiomatic

/-! ## Computations that may fail -/

theorem bind_eq_ok {ε α β : Type} {x : Except ε α} {f : α → Except ε β} {b : β} :
    (x >>= f) = .ok b ↔ ∃ a, x = .ok a ∧ f a = .ok b := by
  cases x with
  | error e => simp [bind, Except.bind]
  | ok a => simp [bind, Except.bind]

@[simp] theorem throw_ne_ok {ε β : Type} {e : ε} {b : β} : (throw e : Except ε β) ≠ .ok b := by
  simp [throw, throwThe, MonadExceptOf.throw]

@[simp] theorem throw_bind_ne_ok {ε α β : Type} {e : ε} {f : α → Except ε β} {b : β} :
    (throw e >>= f) ≠ .ok b := by
  simp [throw, throwThe, MonadExceptOf.throw, bind, Except.bind]

theorem guard_eq_ok {ε α β : Type} {c : Prop} [Decidable c] {e : ε} {f : α → Except ε β}
    {x : Except ε β} {b : β} : (if c then throw e >>= f else x) = .ok b ↔ ¬c ∧ x = .ok b := by
  by_cases h : c
  · simp [h]
  · simp [h]

theorem mapM_eq_ok {ε α β : Type} {f : α → Except ε β} {xs : List α} {ys : List β} :
    xs.mapM f = .ok ys ↔ List.Forall₂ (fun x y => f x = .ok y) xs ys := by
  induction xs generalizing ys with
  | nil =>
    rw [List.mapM_nil, List.forall₂_nil_left_iff]
    exact ⟨fun h => (Except.ok.inj h).symm, fun h => by rw [h]; rfl⟩
  | cons x xs ih =>
    rw [List.mapM_cons, bind_eq_ok, List.forall₂_cons_left_iff]
    constructor
    · rintro ⟨y, hy, h⟩
      obtain ⟨ys', hys, h⟩ := bind_eq_ok.1 h
      exact ⟨y, ys', hy, ih.1 hys, (Except.ok.inj h).symm⟩
    · rintro ⟨y, ys', hy, hys, rfl⟩
      exact ⟨y, hy, bind_eq_ok.2 ⟨ys', ih.2 hys, rfl⟩⟩

theorem exists_forall₂ {α β : Type} {R : α → β → Prop} {ys : List β}
    (h : ∀ y ∈ ys, ∃ x, R x y) : ∃ xs, List.Forall₂ R xs ys := by
  induction ys with
  | nil => exact ⟨[], .nil⟩
  | cons y ys ih =>
    obtain ⟨x, hx⟩ := h y (by simp)
    obtain ⟨xs, hxs⟩ := ih fun z hz => h z (by simp [hz])
    exact ⟨x :: xs, .cons hx hxs⟩

theorem exists_of_mem_right {α β : Type} {R : α → β → Prop} {xs : List α} {ys : List β}
    (h : List.Forall₂ R xs ys) {y : β} (hy : y ∈ ys) : ∃ x ∈ xs, R x y := by
  induction h with
  | nil => exact absurd hy (by simp)
  | cons hr _ ih =>
    rcases List.mem_cons.1 hy with rfl | hy
    · exact ⟨_, by simp, hr⟩
    · obtain ⟨x, hx, hr⟩ := ih hy
      exact ⟨x, by simp [hx], hr⟩

namespace Term

open Text

variable {read : List Char → Except SyntaxError Term} {text : List Char} {t : Term}

/-! ## Statements -/

theorem readStatement_eq_ok {place : Nat} {copula : Copula} :
    readStatement read text place copula = .ok t ↔
      (text.take place).drop 1 ≠ [] ∧ (text.drop (place + 3)).dropLast ≠ [] ∧
        ∃ subject predicate, read ((text.take place).drop 1) = .ok subject ∧
          read ((text.drop (place + 3)).dropLast) = .ok predicate ∧
          t = relate subject copula predicate
            (if copula.isFirstOrder then 0 else trailingInterval ((text.take place).drop 1)) := by
  simp only [readStatement, guard_eq_ok, bind_eq_ok, Bool.or_eq_true, List.isEmpty_iff, not_or,
    pure, Except.pure, Except.ok.injEq, eq_comm (b := t), and_assoc]
  constructor
  · rintro ⟨hs, hp, subject, hsubject, predicate, hpredicate, rfl⟩
    exact ⟨hs, hp, subject, predicate, hsubject, hpredicate, rfl⟩
  · rintro ⟨hs, hp, subject, predicate, hsubject, hpredicate, rfl⟩
    exact ⟨hs, hp, subject, hsubject, predicate, hpredicate, rfl⟩

/-! ## Compounds -/

theorem readOperand_eq_ok {whole : String} {token : List Char} {x : Operand} :
    readOperand read whole token = .ok x ↔ token ≠ [] ∧
      ((token.all Char.isDigit = true ∧
          ∃ n, word? UInt32.size token = some n ∧ x = .gap n.toUInt32) ∨
        (token.all Char.isDigit = false ∧ ∃ t, read token = .ok t ∧ x = .term t)) := by
  unfold readOperand
  by_cases hempty : token = []
  · simp [hempty]
  · by_cases hdigits : token.all Char.isDigit = true
    · cases hword : word? UInt32.size token with
      | none => simp [hempty, hdigits]
      | some n => simp [hempty, hdigits, pure, Except.pure, eq_comm (b := x)]
    · have hdigits : token.all Char.isDigit = false := by simpa using hdigits
      cases hread : read token with
      | error e => simp [hempty, hdigits, Functor.map, Except.map]
      | ok t => simp [hempty, hdigits, Functor.map, Except.map, eq_comm (b := x)]

theorem splitConnector_eq_ok {inner body : List Char} {whole : String} {connector : Connector} :
    splitConnector inner whole = .ok (connector, body) ↔
      connector.isSet = false ∧ inner = connector.symbol.toList ++ ',' :: body := by
  constructor
  · intro h
    unfold splitConnector at h
    extract_lets cut at h
    have done : ∀ width, cut width = .ok (connector, body) →
        connector.isSet = false ∧ inner = connector.symbol.toList ++ ',' :: body := by
      intro width hcut
      simp only [cut] at hcut
      split at hcut
      · rename_i found hfound
        obtain ⟨hsymbol, hset⟩ := Option.filter_eq_some_iff.1 hfound
        simp only [pure, Except.pure, bind, Except.bind] at hcut
        split at hcut
        · rename_i rest hrest
          simp only [Except.ok.injEq, Prod.mk.injEq] at hcut
          obtain ⟨rfl, rfl⟩ := hcut
          refine ⟨by simpa using hset, ?_⟩
          rw [Connector.symbol_of_ofSymbol? hsymbol, ← hrest, List.take_append_drop]
        · exact absurd hcut throw_ne_ok
      · exact absurd hcut throw_bind_ne_ok
    split at h
    · exact done _ h
    · exact done _ h
    · exact absurd h throw_bind_ne_ok
  · rintro ⟨hset, rfl⟩
    cases connector with
    | extensionalSet | intensionalSet => exact absurd hset (by decide)
    | _ => rfl

/-- The operands of a compound are read one by one, and there is a term among them. -/
def ReadsOperands (read : List Char → Except SyntaxError Term) (whole : String)
    (connector : Connector) (body : List Char) (t : Term) : Prop :=
  ∃ tokens operands, splitOperands 0 body = some tokens ∧
    List.Forall₂ (fun token x => readOperand read whole token = .ok x) tokens operands ∧
    operands.filterMap Operand.term? ≠ [] ∧
    t = compose connector (operands.filterMap Operand.term?) (operands.filterMap Operand.gap?)

theorem opening_of_not_isSet {connector : Connector} (h : connector.isSet = false) :
    opening connector = '(' :: (connector.symbol.toList ++ [',']) := by
  simp [opening, h]

theorem closing_of_not_isSet {connector : Connector} (h : connector.isSet = false) :
    closing connector = ')' := by
  cases connector with
  | extensionalSet | intensionalSet => exact absurd h (by decide)
  | _ => rfl

theorem exists_ofBracket? {c : Char} (h : opensSet c = true) :
    ∃ set, Connector.ofBracket? c = some set := by
  rcases Bool.or_eq_true_iff.1 h with h | h
  · exact ⟨.extensionalSet, by rw [eq_of_beq h]; rfl⟩
  · exact ⟨.intensionalSet, by rw [eq_of_beq h]; rfl⟩

theorem opening_of_ofBracket? {c : Char} {set : Connector}
    (h : Connector.ofBracket? c = some set) : opening set = [c] := by
  unfold Connector.ofBracket? at h
  split at h
  · obtain rfl := Option.some.inj h
    rfl
  · obtain rfl := Option.some.inj h
    rfl
  · exact absurd h (by simp)

theorem exists_opening_of_isSet {connector : Connector} (h : connector.isSet = true) :
    ∃ c, opensSet c = true ∧ Connector.ofBracket? c = some connector := by
  cases connector with
  | extensionalSet => exact ⟨'{', rfl, rfl⟩
  | intensionalSet => exact ⟨'[', rfl, rfl⟩
  | _ => exact absurd h (by decide)

theorem readCompound_eq_ok {first last : Char} {inner : List Char}
    (h : first = '(' ∧ last = ')' ∨ opensSet first = true) :
    readCompound read (first :: (inner ++ [last])) = .ok t ↔ ∃ connector body,
      first :: (inner ++ [last]) = opening connector ++ body ++ [closing connector] ∧
        ReadsOperands read (String.ofList (first :: (inner ++ [last]))) connector body t := by
  unfold readCompound
  extract_lets whole inner' finish check
  have hinner : inner' = inner := by
    simp [inner']
  have hfinish : ∀ connector body, finish (connector, body) = .ok t ↔
      ReadsOperands read whole connector body t := by
    intro connector body
    simp only [finish, ReadsOperands]
    cases splitOperands 0 body with
    | none => simp
    | some tokens =>
      simp only [guard_eq_ok, bind_eq_ok, mapM_eq_ok, pure, Except.pure, Except.ok.injEq,
        List.isEmpty_iff, Option.some.injEq, eq_comm (a := t), exists_and_left,
        exists_eq_left']
  have hlast : (first :: (inner ++ [last])).getLast? = some last := by
    rw [← List.cons_append]
    exact List.getLast?_concat
  rw [guard_eq_ok, and_iff_right (by simp)]
  simp only [check, List.head?_cons, Option.bind_some, hlast]
  rcases h with ⟨rfl, rfl⟩ | hfirst
  · have hnone : Connector.ofBracket? '(' = none := rfl
    rw [hnone]
    simp only [bind_eq_ok, Prod.exists, splitConnector_eq_ok, hfinish, hinner]
    constructor
    · rintro ⟨connector, body, ⟨hset, rfl⟩, hreads⟩
      refine ⟨connector, body, ?_, hreads⟩
      simp [opening_of_not_isSet hset, closing_of_not_isSet hset]
    · rintro ⟨connector, body, htext, hreads⟩
      refine ⟨connector, body, ?_, hreads⟩
      cases hset : connector.isSet with
      | false =>
        rw [opening_of_not_isSet hset, closing_of_not_isSet hset] at htext
        have hinner : inner ++ [')'] = (connector.symbol.toList ++ ',' :: body) ++ [')'] := by
          simpa using htext
        exact ⟨rfl, List.append_cancel_right hinner⟩
      | true =>
        obtain ⟨c, hc, hbracket⟩ := exists_opening_of_isSet hset
        rw [opening_of_ofBracket? hbracket] at htext
        obtain ⟨rfl, _⟩ := List.cons.inj htext
        exact absurd hc (by decide)
  · obtain ⟨set, hbracket⟩ := exists_ofBracket? hfirst
    rw [hbracket]
    constructor
    · intro h
      simp only [pure_bind] at h
      split at h
      · rename_i hclose
        rw [hfinish, hinner] at h
        refine ⟨set, inner, ?_, h⟩
        rw [opening_of_ofBracket? hbracket, closing, ← Option.some.inj hclose]
        rfl
      · exact absurd h throw_bind_ne_ok
    · rintro ⟨connector, body, htext, hreads⟩
      cases hset : connector.isSet with
      | false =>
        rw [opening_of_not_isSet hset] at htext
        obtain ⟨rfl, _⟩ := List.cons.inj htext
        exact absurd hfirst (by decide)
      | true =>
        obtain ⟨c, _, hbracket'⟩ := exists_opening_of_isSet hset
        rw [opening_of_ofBracket? hbracket'] at htext
        obtain ⟨rfl, hrest⟩ := List.cons.inj htext
        rw [hbracket] at hbracket'
        obtain rfl := Option.some.inj hbracket'
        obtain ⟨rfl, hclose⟩ := List.append_inj' hrest rfl
        have hclose : some last = some (set.closing?.getD ')') :=
          congrArg some (List.cons.inj hclose).1
        simp only [pure_bind]
        rw [if_pos hclose, hfinish, hinner]
        exact hreads

/-- What opens a compound shows its connector. -/
theorem opening_inj {connector connector' : Connector} {body body' : List Char}
    (h : opening connector ++ body = opening connector' ++ body') :
    connector = connector' ∧ body = body' := by
  cases hset : connector.isSet with
  | false =>
    cases hset' : connector'.isSet with
    | false =>
      rw [opening_of_not_isSet hset, opening_of_not_isSet hset'] at h
      -- Both are what the same text is split into.
      have hinner : connector.symbol.toList ++ ',' :: body =
          connector'.symbol.toList ++ ',' :: body' := by
        simpa using h
      have hsplit : splitConnector (connector.symbol.toList ++ ',' :: body) "" =
          .ok (connector, body) := splitConnector_eq_ok.2 ⟨hset, rfl⟩
      have hsplit' : splitConnector (connector.symbol.toList ++ ',' :: body) "" =
          .ok (connector', body') := splitConnector_eq_ok.2 ⟨hset', hinner⟩
      exact Prod.mk.inj (Except.ok.inj (hsplit.symm.trans hsplit'))
    | true =>
      obtain ⟨c, hc, hbracket⟩ := exists_opening_of_isSet hset'
      rw [opening_of_not_isSet hset, opening_of_ofBracket? hbracket] at h
      obtain ⟨rfl, _⟩ := List.cons.inj h
      exact absurd hc (by decide)
  | true =>
    obtain ⟨c, hc, hbracket⟩ := exists_opening_of_isSet hset
    rw [opening_of_ofBracket? hbracket] at h
    cases hset' : connector'.isSet with
    | false =>
      rw [opening_of_not_isSet hset'] at h
      obtain ⟨rfl, _⟩ := List.cons.inj h
      exact absurd hc (by decide)
    | true =>
      obtain ⟨c', _, hbracket'⟩ := exists_opening_of_isSet hset'
      rw [opening_of_ofBracket? hbracket'] at h
      obtain ⟨hfirst, hbody⟩ := List.append_inj h rfl
      obtain rfl := List.singleton_inj.1 hfirst
      exact ⟨Option.some.inj (hbracket.symm.trans hbracket'), hbody⟩

theorem opening_append_inj {connector connector' : Connector} {body body' : List Char}
    (h : opening connector ++ body ++ [closing connector] =
      opening connector' ++ body' ++ [closing connector']) :
    connector = connector' ∧ body = body' := by
  rw [List.append_assoc, List.append_assoc] at h
  obtain ⟨rfl, h⟩ := opening_inj h
  exact ⟨rfl, List.append_cancel_right h⟩

theorem readCompound_singleton (c : Char) : readCompound read [c] ≠ .ok t := by
  intro h
  unfold readCompound at h
  extract_lets at h
  exact (guard_eq_ok.1 h).1 (by simp)

/-! ## Variables -/

theorem ne_of_isNameChar {c d : Char} (h : isNameChar c = true) (hd : isNameChar d = false) :
    c ≠ d := by
  rintro rfl
  rw [h] at hd
  exact absurd hd (by decide)

/-- The kind of a variable that begins with a mark. -/
def markedKind (symbol : Char) (dependencies : List Term) : VariableKind :=
  if symbol == '?' then .query else if dependencies.isEmpty then .independent else .dependent

/-- The dependencies of a variable are read from pieces between commas. -/
theorem readVariable_eq_ok {symbol : Char} {rest : List Char}
    (h : readVariable read symbol rest = .ok t) : ∃ name pieces ts,
      ofVariable (markedKind symbol ts) name ts = .ok t ∧
        List.Forall₂ (fun piece d => read piece = .ok d) pieces ts ∧
        (∀ piece ∈ pieces, ',' ∉ piece) ∧ (',' ∉ rest → pieces.length ≤ 1) := by
  unfold readVariable at h
  extract_lets finish at h
  split at h
  · exact ⟨String.ofList rest, [], [], h, .nil, by simp, by simp⟩
  · rename_i name list hfirst
    split at h
    · exact absurd h throw_bind_ne_ok
    · rename_i inner after hlast
      obtain ⟨ts, hts, h⟩ := bind_eq_ok.1 h
      refine ⟨_, _, _, h, mapM_eq_ok.1 hts, ?_, ?_⟩
      · intro piece hpiece
        exact not_mem_of_mem_split (List.mem_filter.1 hpiece).1
      · intro hrest
        have hinner : ∀ c ∈ inner, c ≠ ',' := by
          rintro c hc rfl
          apply hrest
          rw [eq_of_cutFirst? hfirst, eq_of_cutLast? hlast]
          simp [hc]
        refine Nat.le_trans (List.length_filter_le _ _) ?_
        rw [split_of_ne hinner]
        exact Nat.le_refl 1

/-- A variable is read from its name and from the texts of its dependencies. -/
theorem readVariable_append {symbol : Char} {name : List Char} {pieces : List (List Char)}
    (hname : ∀ c ∈ name, isNameChar c = true)
    (hpieces : ∀ piece ∈ pieces, piece ≠ [] ∧ ',' ∉ piece) :
    readVariable read symbol (name ++ dependencyList pieces) = .ok t ↔
      ∃ ts, List.Forall₂ (fun piece d => read piece = .ok d) pieces ts ∧
        ofVariable (markedKind symbol ts) (String.ofList name) ts = .ok t := by
  have hopen : ∀ c ∈ name, c ≠ '(' := fun c hc => ne_of_isNameChar (hname c hc) rfl
  unfold readVariable
  cases pieces with
  | nil =>
    rw [dependencyList, if_pos rfl, List.append_nil, cutFirst?_eq_none hopen]
    simp only [List.forall₂_nil_left_iff, exists_eq_left]
    rfl
  | cons piece pieces =>
    have hsplit : split ',' ([','].intercalate (piece :: pieces)) = piece :: pieces := by
      refine split_intercalate (by simp) fun q hq c hc heq => ?_
      exact (hpieces q hq).2 (heq ▸ hc)
    have hfilter : (piece :: pieces).filter (fun q => !q.isEmpty) = piece :: pieces := by
      rw [List.filter_eq_self]
      intro q hq
      simp [(hpieces q hq).1]
    rw [dependencyList, if_neg (by simp), cutFirst?_append hopen]
    simp only [cutLast?_concat, hsplit, hfilter, bind_eq_ok, mapM_eq_ok, pure, Except.pure,
      Except.ok.injEq, exists_eq_left']
    rfl

/-! ## Terms -/

variable {depth place : Nat} {copula : Copula} {inner : List Char}

theorem exists_succ_of_readAt (h : readAt depth text = .ok t) : ∃ n, depth = n + 1 := by
  cases depth with
  | zero => exact absurd h (by simp [readAt])
  | succ n => exact ⟨n, rfl⟩

/-- What a text is read as, and from which parts of it. -/
inductive ReadAs (read : List Char → Except SyntaxError Term) (text : List Char) (t : Term) :
    Prop where
  | statement {left right : List Char} {subject predicate : Term} (copula : Copula)
      (interval : UInt32) (within : left ⊆ text ∧ right ⊆ text)
      (left_eq : read left = .ok subject) (right_eq : read right = .ok predicate)
      (eq : t = relate subject copula predicate interval) : ReadAs read text t
  | compound {connector : Connector} {body : List Char} {whole : String}
      (eq : text = opening connector ++ body ++ [closing connector])
      (reads : ReadsOperands read whole connector body t) : ReadAs read text t
  | var {symbol : Char} {rest : List Char} (eq : text = symbol :: rest)
      (reads : readVariable read symbol rest = .ok t) : ReadAs read text t
  | name (reads : ofName (String.ofList (dropIndices false text)) = .ok t) : ReadAs read text t

theorem readAs_of_readCompound {first : Char} {rest : List Char}
    (hfirst : first = '(' ∧ (first :: rest).getLast? = some ')' ∨ opensSet first = true)
    (h : readCompound read (first :: rest) = .ok t) : ReadAs read (first :: rest) t := by
  rcases List.eq_nil_or_concat' rest with rfl | ⟨inner, last, rfl⟩
  · exact absurd h (readCompound_singleton first)
  · rw [← List.cons_append, List.getLast?_concat, Option.some.injEq] at hfirst
    obtain ⟨connector, body, htext, hreads⟩ := (readCompound_eq_ok hfirst).1 h
    exact .compound htext hreads

/-- The first character shows what a text is read as, and brackets whether it is a statement. -/
theorem readAs_of_readAt (h : readAt (depth + 1) text = .ok t) : ReadAs (readAt depth) text t := by
  cases text with
  | nil => exact absurd h (by simp [readAt])
  | cons first rest =>
    simp only [readAt] at h
    split at h
    · rename_i hfirst
      split at h
      · exact absurd h throw_ne_ok
      · rename_i hlast
        split at h
        · obtain ⟨_, _, subject, predicate, hs, hp, heq⟩ := readStatement_eq_ok.1 h
          exact .statement _ _ ⟨List.Subset.trans (List.drop_subset _ _) (List.take_subset _ _),
            List.Subset.trans (List.dropLast_subset _) (List.drop_subset _ _)⟩ hs hp heq
        · exact readAs_of_readCompound (.inl ⟨eq_of_beq hfirst, by simpa using hlast⟩) h
    · split at h
      · exact readAs_of_readCompound (.inr ‹_›) h
      · split at h
        · exact .var rfl h
        · exact .name h

theorem readAt_statement (h : topCopula? ('(' :: (inner ++ [')'])) = some (place, copula)) :
    readAt (depth + 1) ('(' :: (inner ++ [')'])) =
      readStatement (readAt depth) ('(' :: (inner ++ [')'])) place copula := by
  have hlast : ('(' :: (inner ++ [')'])).getLast? = some ')' := by
    rw [← List.cons_append]
    exact List.getLast?_concat
  simp only [readAt, hlast, h]
  rfl

theorem readAt_compound (h : topCopula? ('(' :: (inner ++ [')'])) = none) :
    readAt (depth + 1) ('(' :: (inner ++ [')'])) =
      readCompound (readAt depth) ('(' :: (inner ++ [')'])) := by
  have hlast : ('(' :: (inner ++ [')'])).getLast? = some ')' := by
    rw [← List.cons_append]
    exact List.getLast?_concat
  simp only [readAt, hlast, h]
  rfl

theorem readAt_set {first : Char} (h : opensSet first = true) (rest : List Char) :
    readAt (depth + 1) (first :: rest) = readCompound (readAt depth) (first :: rest) := by
  have hparen : (first == '(') = false := by
    rcases Bool.or_eq_true_iff.1 h with h | h <;> rw [eq_of_beq h] <;> rfl
  simp only [readAt, hparen, h, Bool.false_eq_true, if_false, if_true]

theorem readAt_variable (kind : VariableKind) (rest : List Char) :
    readAt (depth + 1) (kind.symbol :: rest) = readVariable (readAt depth) kind.symbol rest := by
  cases kind <;> rfl

theorem dropIndices_eq_self {cs : List Char} (h : ∀ c ∈ cs, c ≠ ',') :
    dropIndices false cs = cs := by
  induction cs with
  | nil => rfl
  | cons c cs ih =>
    have hc : (c == ',') = false := beq_false_of_ne (h c (by simp))
    rw [dropIndices, ih fun d hd => h d (by simp [hd])]
    simp [hc]

theorem readAt_name {name : String} (hne : name ≠ "")
    (hchars : ∀ c ∈ name.toList, isNameChar c = true) :
    readAt (depth + 1) name.toList = .ok (atom name) := by
  have hdrop : dropIndices false name.toList = name.toList := by
    apply dropIndices_eq_self
    intro c hc
    rintro rfl
    exact absurd (hchars _ hc) (by decide)
  cases hlist : name.toList with
  | nil => exact absurd (String.toList_eq_nil_iff.1 hlist) hne
  | cons first rest =>
    have hfirst : isNameChar first = true := hchars first (by simp [hlist])
    have other : ∀ c, isNameChar c = false → (first == c) = false := by
      intro c hc
      apply beq_false_of_ne
      rintro rfl
      exact absurd hfirst (by simp [hc])
    simp only [readAt, opensSet, other '(' rfl, other '{' rfl, other '[' rfl, other '#' rfl,
      other '?' rfl, Bool.or_self, Bool.false_eq_true, if_false]
    rw [← hlist, hdrop, String.ofList_toList, ofName_eq_ok]
    exact ⟨rfl, hne, hchars⟩

end Term

end NonAxiomatic
