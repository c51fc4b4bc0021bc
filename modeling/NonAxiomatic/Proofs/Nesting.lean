import NonAxiomatic.Proofs.Scanning
import NonAxiomatic.Proofs.Written

/-!
# Round brackets of what is read

A text that is read may open more round brackets than it closes. What stands behind the dependencies
of a variable is not looked at (`Term.unread`), and where the operands of a compound are found, one
kind of bracket is as good as another, so that what is not looked at may be in any part of a text.
But no round bracket is closed that was not opened, and those that stay open are those that are not
looked at (`Term.leaves_readAt`). So what stands behind a text that is read, lies inside of as many
brackets as it does itself, or of more (`Term.rises_readAt`).

* `Term.copulasFrom_append`: what is passed over in front of a closing bracket, is passed over in
  front of a comma, and inside of more brackets.
* `Term.splitOperands_append`: what is one piece by itself, is one in front of a comma.
-/

namespace NonAxiomatic

namespace Term

open Text

variable {cs ds rest text : List Char} {m n : Nat} {t : Term}

/-! ## Open brackets -/

/-- The number of round brackets that are open behind a character if so many are open before it;
none if it closes a bracket that was not open. -/
def turn (n : Nat) (c : Char) : Option Nat :=
  if c = '(' then some (n + 1)
  else if c = ')' then if n = 0 then none else some (n - 1)
  else some n

/-- The number of round brackets that are open behind a text if so many are open before it; none if
a bracket is closed that was not open. -/
def openAfter (n : Nat) (cs : List Char) : Option Nat := cs.foldlM turn n

theorem turn_of_ne {c : Char} (hopen : c ≠ '(') (hclose : c ≠ ')') (n : Nat) :
    turn n c = some n := by
  rw [turn, if_neg hopen, if_neg hclose]

theorem openAfter_cons (n : Nat) (c : Char) (cs : List Char) :
    openAfter n (c :: cs) = (turn n c).bind fun m => openAfter m cs := rfl

theorem openAfter_append (n : Nat) (cs ds : List Char) :
    openAfter n (cs ++ ds) = (openAfter n cs).bind fun m => openAfter m ds :=
  List.foldlM_append

theorem turn_add {c : Char} (h : turn n c = some m) (k : Nat) :
    turn (n + k) c = some (m + k) := by
  unfold turn at h ⊢
  split_ifs at h ⊢ <;> simp only [Option.some.injEq] at h ⊢ <;> omega

/-- Brackets that are open before stay open. -/
theorem openAfter_add (h : openAfter n cs = some m) (k : Nat) :
    openAfter (n + k) cs = some (m + k) := by
  induction cs generalizing n with
  | nil =>
    obtain rfl := Option.some.inj h
    rfl
  | cons c cs ih =>
    rw [openAfter_cons] at h
    obtain ⟨l, hl, hrest⟩ := Option.bind_eq_some_iff.1 h
    rw [openAfter_cons, turn_add hl, Option.bind_some]
    exact ih hrest

/-- A text closes no round bracket that it has not opened, and leaves so many open. -/
def Leaves (cs : List Char) (m : Nat) : Prop := openAfter 0 cs = some m

namespace Leaves

theorem nil : Leaves [] 0 := rfl

theorem append (hc : Leaves cs m) (hd : Leaves ds n) : Leaves (cs ++ ds) (m + n) := by
  rw [Leaves, openAfter_append, hc, Option.bind_some, ← Nat.zero_add m, openAfter_add hd m,
    Nat.zero_add, Nat.add_comm]

theorem brackets (h : Leaves cs m) : Leaves ('(' :: (cs ++ [')'])) m := by
  show openAfter 1 (cs ++ [')']) = some m
  rw [openAfter_append, ← Nat.zero_add 1, openAfter_add h 1]
  rfl

theorem of_ne (h : ∀ c ∈ cs, c ≠ ')') : Leaves cs (cs.count '(') := by
  induction cs with
  | nil => exact nil
  | cons c cs ih =>
    have hfirst : Leaves [c] ([c].count '(') := by
      by_cases hopen : c = '('
      · subst hopen
        rfl
      · rw [List.count_singleton, if_neg (by simpa using hopen)]
        simp [Leaves, openAfter, turn_of_ne hopen (h c (by simp))]
    rw [← List.singleton_append, List.count_append]
    exact hfirst.append (ih fun d hd => h d (by simp [hd]))

/-- A text without round brackets leaves none open. -/
theorem of_bare (h : ∀ c ∈ cs, c ≠ '(' ∧ c ≠ ')') : Leaves cs 0 := by
  have hcount : cs.count '(' = 0 := List.count_eq_zero.2 fun hc => (h _ hc).1 rfl
  rw [← hcount]
  exact of_ne fun c hc => (h c hc).2

theorem intercalate {xs : List (List Char)} {f : List Char → Nat} (h : ∀ x ∈ xs, Leaves x (f x)) :
    Leaves ([','].intercalate xs) (xs.map f).sum := by
  induction xs with
  | nil => exact nil
  | cons x xs ih =>
    have hx := h x (by simp)
    have hrest := ih fun y hy => h y (by simp [hy])
    rw [List.map_cons, List.sum_cons]
    by_cases hxs : xs = []
    · subst hxs
      rwa [List.intercalate_singleton, List.map_nil, List.sum_nil, Nat.add_zero]
    · have hcomma : Leaves [','] 0 := .of_bare (by simp)
      rw [List.intercalate_cons_of_ne_nil hxs]
      simpa using (hx.append hcomma).append hrest

end Leaves

/-- Whether a text closes no round bracket that it has not opened. -/
def Rises (cs : List Char) : Prop := ∃ m, openAfter 0 cs = some m

theorem Rises.of_ne (h : ∀ c ∈ cs, c ≠ ')') : Rises cs := ⟨_, Leaves.of_ne h⟩

/-! ## Pieces between commas -/

/-- Splitting is undone by putting the commas back. -/
theorem intercalate_splitOperands {depth : Nat} {pieces : List (List Char)}
    (h : splitOperands depth cs = some pieces) :
    pieces ≠ [] ∧ [','].intercalate pieces = cs := by
  have push : ∀ {c : Char} {x : Option (List (List Char))} {rest pieces : List _},
      (∀ ps, x = some ps → ps ≠ [] ∧ [','].intercalate ps = rest) →
      x.map (pushFirst c) = some pieces →
      pieces ≠ [] ∧ [','].intercalate pieces = c :: rest := by
    intro c x rest pieces ih h
    obtain ⟨ps, hps, rfl⟩ := Option.map_eq_some_iff.1 h
    obtain ⟨hne, hrest⟩ := ih ps hps
    obtain ⟨p, qs, rfl⟩ := List.exists_cons_of_ne_nil hne
    refine ⟨by simp [pushFirst], ?_⟩
    rw [pushFirst, ← hrest]
    by_cases hqs : qs = []
    · subst hqs
      rw [List.intercalate_singleton, List.intercalate_singleton]
    · rw [List.intercalate_cons_of_ne_nil hqs, List.intercalate_cons_of_ne_nil hqs]
      rfl
  -- Along the recursion; a comma outside of all brackets starts a new piece.
  fun_induction splitOperands depth cs generalizing pieces with
  | case1 =>
    obtain rfl := Option.some.inj h
    exact ⟨by simp, rfl⟩
  | case2 | case4 => exact absurd h (by simp)
  | case3 _ _ _ _ ih | case5 _ _ _ _ _ ih | case7 _ _ _ _ _ _ ih =>
    exact push (fun _ => ih) h
  | case6 depth c rest _ _ hcomma ih =>
    obtain ⟨ps, hps, rfl⟩ := Option.map_eq_some_iff.1 h
    obtain ⟨hne, hrest⟩ := ih hps
    refine ⟨by simp, ?_⟩
    rw [List.intercalate_cons_of_ne_nil hne, hrest, eq_of_beq (Bool.and_eq_true_iff.1 hcomma).1]
    rfl

theorem map_pushFirst_append {pieces : List (List Char)} (hne : pieces ≠ []) (c : Char)
    (x : Option (List (List Char))) :
    (x.map (pieces ++ ·)).map (pushFirst c) = x.map (pushFirst c pieces ++ ·) := by
  obtain ⟨p, ps, rfl⟩ := List.exists_cons_of_ne_nil hne
  rw [Option.map_map]
  rfl

/-- Behind a comma outside of all brackets, splitting begins anew. -/
theorem splitOperands_append {depth : Nat} {pieces : List (List Char)}
    (h : splitOperands depth cs = some pieces) (rest : List Char) :
    splitOperands depth (cs ++ ',' :: rest) = (splitOperands 0 rest).map (pieces ++ ·) := by
  fun_induction splitOperands depth cs generalizing pieces with
  | case1 =>
    obtain rfl := Option.some.inj h
    rfl
  | case2 | case4 => exact absurd h (by simp)
  -- The walk is the same with more text behind it, as long as it ends outside of all brackets.
  | case3 depth c cs hopen ih =>
    obtain ⟨ps, hps, rfl⟩ := Option.map_eq_some_iff.1 h
    rw [List.cons_append, splitOperands_open hopen, ih hps,
      map_pushFirst_append (intercalate_splitOperands hps).1]
  | case5 c cs hopen hclose depth ih =>
    obtain ⟨ps, hps, rfl⟩ := Option.map_eq_some_iff.1 h
    rw [List.cons_append, splitOperands_close (by simpa using hopen) hclose, ih hps,
      map_pushFirst_append (intercalate_splitOperands hps).1]
  | case7 depth c cs hopen hclose hkeep ih =>
    obtain ⟨ps, hps, rfl⟩ := Option.map_eq_some_iff.1 h
    rw [List.cons_append, splitOperands_keep (by simpa using hopen) (by simpa using hclose)
      (Bool.eq_false_iff.2 hkeep), ih hps, map_pushFirst_append (intercalate_splitOperands hps).1]
  | case6 depth c cs _ _ hcomma ih =>
    obtain ⟨ps, hps, rfl⟩ := Option.map_eq_some_iff.1 h
    obtain ⟨hc, hdepth⟩ := Bool.and_eq_true_iff.1 hcomma
    rw [eq_of_beq hc, eq_of_beq hdepth, List.cons_append, splitOperands_comma, ih hps,
      Option.map_map]
    rfl

theorem not_mem_of_cutLast?_eq_none {separator : Char} (h : cutLast? separator text = none) :
    separator ∉ text := by
  induction text with
  | nil => simp
  | cons c rest ih =>
    rw [cutLast?] at h
    split at h
    · exact absurd h (by simp)
    · rename_i hnone
      split at h
      · exact absurd h (by simp)
      · rename_i hc
        have hne : separator ≠ c := by
          rintro rfl
          exact hc (beq_self_eq_true _)
        simp [hne, ih hnone]

/-- Behind the last separator there is none. -/
theorem not_mem_of_cutLast? {separator : Char} {before after : List Char}
    (h : cutLast? separator text = some (before, after)) : separator ∉ after := by
  induction text generalizing before with
  | nil => exact absurd h (by simp [cutLast?])
  | cons c rest ih =>
    rw [cutLast?] at h
    split at h
    · rename_i hcut
      obtain ⟨_, rfl⟩ := Prod.mk.inj (Option.some.inj h)
      exact ih hcut
    · rename_i hnone
      split at h
      · obtain ⟨_, rfl⟩ := Prod.mk.inj (Option.some.inj h)
        exact not_mem_of_cutLast?_eq_none hnone
      · exact absurd h (by simp)

theorem intercalate_split (separator : Char) (text : List Char) :
    [separator].intercalate (split separator text) = text := by
  induction text with
  | nil => rfl
  | cons c rest ih =>
    have hne : split separator rest ≠ [] := by
      cases rest with
      | nil => simp [split]
      | cons d rest =>
        rw [split]
        split
        · simp
        · split <;> simp
    rw [split]
    split
    · rename_i hc
      rw [List.intercalate_cons_of_ne_nil hne, ih, eq_of_beq hc]
      rfl
    · obtain ⟨piece, pieces, hpieces⟩ := List.exists_cons_of_ne_nil hne
      rw [hpieces] at ih ⊢
      dsimp only
      by_cases hlast : pieces = []
      · subst hlast
        rw [List.intercalate_singleton] at ih ⊢
        rw [ih]
      · rw [List.intercalate_cons_of_ne_nil hlast] at ih ⊢
        rw [← ih]
        rfl

/-! ## The parts of a text -/

/-- What the text of a term is cut into. -/
structure Parts where
  /-- The texts from which the parts of the term are read. A connector and the intervals of a
  compound are among them. -/
  inner : List (List Char)
  /-- The text from which nothing is read. -/
  behind : List Char

/-- The parts of a compound. -/
def operandParts (text : List Char) : Parts :=
  ⟨(splitOperands 0 text.tail.dropLast).getD [], []⟩

/-- The parts of a variable. What stands behind its dependencies is not looked at. -/
def variableParts (rest : List Char) : Parts :=
  match cutFirst? '(' rest with
  | none => ⟨[], []⟩
  | some (_, list) =>
    match cutLast? ')' list with
    | none => ⟨[], []⟩
    | some (inner, behind) => ⟨split ',' inner, behind⟩

/-- The parts of a term. -/
def parts : List Char → Parts
  | [] => ⟨[], []⟩
  | first :: rest =>
    if first == '(' then
      match topCopula? (first :: rest) with
      | some (place, _) =>
        ⟨[((first :: rest).take place).drop 1, ((first :: rest).drop (place + 3)).dropLast], []⟩
      | none => operandParts (first :: rest)
    else if opensSet first then operandParts (first :: rest)
    else if first == '#' || first == '?' then variableParts rest
    else ⟨[], []⟩

theorem variableParts_of_none (h : cutFirst? '(' rest = none) :
    variableParts rest = ⟨[], []⟩ := by
  simp only [variableParts, h]

theorem variableParts_of_some {name list inner behind : List Char}
    (hcut : cutFirst? '(' rest = some (name, list))
    (hlast : cutLast? ')' list = some (inner, behind)) :
    variableParts rest = ⟨split ',' inner, behind⟩ := by
  simp only [variableParts, hcut, hlast]

theorem parts_of_topCopula? {place : Nat} {copula : Copula}
    (h : topCopula? ('(' :: rest) = some (place, copula)) : parts ('(' :: rest) =
      ⟨[(('(' :: rest).take place).drop 1, (('(' :: rest).drop (place + 3)).dropLast], []⟩ := by
  simp only [parts, beq_self_eq_true, if_true, h]

theorem parts_of_none (h : topCopula? ('(' :: rest) = none) :
    parts ('(' :: rest) = operandParts ('(' :: rest) := by
  simp only [parts, beq_self_eq_true, if_true, h]

/-- What stands behind the dependencies of the variables in a text, in which brackets are nested
less than `depth` deep. -/
def unread : (depth : Nat) → List Char → List Char
  | 0, _ => []
  | depth + 1, text => (parts text).inner.flatMap (unread depth) ++ (parts text).behind

/-- The round brackets that the parts of a text leave open, if they leave `f` of them each. -/
def Parts.leaves (p : Parts) (f : List Char → Nat) : Nat := (p.inner.map f).sum + p.behind.count '('

theorem count_unread (depth : Nat) (text : List Char) : (unread (depth + 1) text).count '(' =
    (parts text).leaves fun piece => (unread depth piece).count '(' := by
  rw [unread, List.count_append, List.count_flatMap]
  rfl

theorem unread_eq_nil (h : parts text = ⟨[], []⟩) (depth : Nat) : unread depth text = [] := by
  cases depth with
  | zero => rfl
  | succ depth => rw [unread, h]; rfl

theorem parts_symbol {connector : Connector} (h : connector.isSet = false) :
    parts connector.symbol.toList = ⟨[], []⟩ := by
  cases connector with
  | extensionalSet | intensionalSet => exact absurd h (by decide)
  | _ => rfl

theorem parts_digits (h : cs.all Char.isDigit = true) : parts cs = ⟨[], []⟩ := by
  cases cs with
  | nil => rfl
  | cons c cs =>
    have hdigit : c.isDigit = true := (Bool.and_eq_true_iff.1 h).1
    have other : ∀ d : Char, d.isDigit = false → (c == d) = false := by
      intro d hd
      apply beq_false_of_ne
      rintro rfl
      exact absurd hdigit (by simp [hd])
    simp only [parts, opensSet, other '(' rfl, other '{' rfl, other '[' rfl, other '#' rfl,
      other '?' rfl, Bool.or_self, Bool.false_eq_true, if_false]

/-! ## What is read -/

/-- `f` counts the round brackets that are left open by what is read. -/
structure Counts (read : List Char → Except SyntaxError Term) (f : List Char → Nat) : Prop where
  leaves : ∀ {piece d}, read piece = .ok d → Leaves piece (f piece)
  eq_zero : ∀ {piece}, parts piece = ⟨[], []⟩ → f piece = 0

variable {read : List Char → Except SyntaxError Term} {f : List Char → Nat} {depth : Nat}
variable {connector : Connector} {body : List Char} {tokens : List (List Char)}

/-- A statement is read from its two sides, which make up all of its text but for the copula and the
brackets. -/
theorem exists_sides {place : Nat} {copula : Copula} (hfirst : text.head? = some '(')
    (hlast : text.getLast? = some ')') (htop : topCopula? text = some (place, copula))
    (h : readStatement read text place copula = .ok t) : ∃ subject predicate,
      text = '(' :: ((text.take place).drop 1 ++ (copula.symbol.toList ++
        (text.drop (place + 3)).dropLast) ++ [')']) ∧
        read ((text.take place).drop 1) = .ok subject ∧
        read ((text.drop (place + 3)).dropLast) = .ok predicate := by
  obtain ⟨hleft, hright, subject, predicate, hs, hp, _⟩ := readStatement_eq_ok.1 h
  obtain ⟨_, hsymbol⟩ := copulasFrom_symbol (List.mem_of_getLast? htop)
  refine ⟨subject, predicate, ?_, hs, hp⟩
  rw [Nat.sub_zero] at hsymbol
  have hfront : '(' :: (text.take place).drop 1 = text.take place := by
    have hplace : place ≠ 0 := by
      rintro rfl
      exact hleft rfl
    rw [List.drop_one]
    exact List.cons_head?_tail (by rw [List.head?_take, if_neg hplace, hfirst]; rfl)
  have hback : (text.drop (place + 3)).dropLast ++ [')'] = text.drop (place + 3) := by
    have hlong : ¬text.length ≤ place + 3 := by
      intro hle
      rw [List.drop_eq_nil_of_le hle] at hright
      exact hright rfl
    exact List.dropLast_append_getLast? _ (by rw [List.getLast?_drop, if_neg hlong, hlast]; rfl)
  calc text = text.take place ++ ((text.drop place).take 3 ++ text.drop (place + 3)) := by
        rw [← List.drop_drop, List.take_append_drop, List.take_append_drop]
    _ = _ := by
        rw [hsymbol, ← hback]
        conv_lhs => rw [← hfront]
        simp

/-- A variable leaves those brackets open that its dependencies do, and those behind them. -/
theorem leaves_variable {symbol : Char} (hsymbol : symbol ≠ '(' ∧ symbol ≠ ')')
    (hf : Counts read f) (h : readVariable read symbol rest = .ok t) :
    Leaves (symbol :: rest) ((variableParts rest).leaves f) := by
  -- The symbol, the name, the list in brackets and what stands behind them, one after the other.
  have hfirst : Leaves [symbol] 0 := .of_bare (by simpa using hsymbol)
  have hname : ∀ {kind : VariableKind} {name : List Char} {ts : List Term},
      ofVariable kind (String.ofList name) ts = .ok t → Leaves name 0 := by
    intro kind name ts hvariable
    obtain ⟨_, _, hchars⟩ := ofVariable_eq_ok.1 hvariable
    rw [String.toList_ofList] at hchars
    exact .of_bare fun c hc =>
      ⟨ne_of_isNameChar (hchars c hc) rfl, ne_of_isNameChar (hchars c hc) rfl⟩
  unfold readVariable at h
  extract_lets finish at h
  split at h
  · rename_i hcut
    rw [variableParts_of_none hcut]
    exact hfirst.append (hname h)
  · rename_i name list hcut
    split at h
    · exact absurd h throw_bind_ne_ok
    · rename_i inner behind hlast
      obtain ⟨ts, hts, h⟩ := bind_eq_ok.1 h
      have hinner : Leaves inner ((split ',' inner).map f).sum := by
        have hpieces : ∀ piece ∈ split ',' inner, Leaves piece (f piece) := by
          intro piece hpiece
          by_cases hempty : piece = []
          · rw [hempty, hf.eq_zero rfl]
            exact .nil
          · have hmem : piece ∈ (split ',' inner).filter fun d => !d.isEmpty :=
              List.mem_filter.2 ⟨hpiece, by simpa using hempty⟩
            obtain ⟨d, _, hd⟩ := exists_of_mem_right (mapM_eq_ok.1 hts).flip hmem
            exact hf.leaves hd
        have hall := Leaves.intercalate hpieces
        rwa [intercalate_split] at hall
      -- Nothing closes behind the last closing bracket, so that only what opens there counts.
      have hbehind : Leaves behind (behind.count '(') := .of_ne fun c hc heq => by
        rw [heq] at hc
        exact not_mem_of_cutLast? hlast hc
      have htext : symbol :: rest = [symbol] ++ (name ++ ('(' :: (inner ++ [')']) ++ behind)) := by
        rw [eq_of_cutFirst? hcut, eq_of_cutLast? hlast]
        simp
      have hall := hfirst.append ((hname h).append (hinner.brackets.append hbehind))
      rw [Nat.zero_add, Nat.zero_add, ← htext] at hall
      rw [variableParts_of_some hcut hlast]
      exact hall

/-- The connector of a compound is split off as if it were an operand. -/
theorem operandParts_of_not_isSet (hset : connector.isSet = false)
    (h : splitOperands 0 body = some tokens) :
    operandParts (opening connector ++ body ++ [closing connector]) =
      ⟨connector.symbol.toList :: tokens, []⟩ := by
  have hsymbol : splitOperands 0 connector.symbol.toList = some [connector.symbol.toList] := by
    cases connector with
    | extensionalSet | intensionalSet => exact absurd hset (by decide)
    | _ => rfl
  have htext : opening connector ++ body ++ [closing connector] =
      '(' :: (connector.symbol.toList ++ ',' :: body ++ [')']) := by
    rw [opening_of_not_isSet hset, closing_of_not_isSet hset]
    simp
  rw [htext, operandParts, List.tail_cons, List.dropLast_concat, splitOperands_append hsymbol, h]
  rfl

theorem operandParts_of_isSet (hset : connector.isSet = true)
    (h : splitOperands 0 body = some tokens) :
    operandParts (opening connector ++ body ++ [closing connector]) = ⟨tokens, []⟩ := by
  obtain ⟨c, _, hbracket⟩ := exists_opening_of_isSet hset
  rw [opening_of_ofBracket? hbracket, List.singleton_append, List.cons_append, operandParts,
    List.tail_cons, List.dropLast_concat, h]
  rfl

theorem Leaves.compound (h : Leaves body m) (connector : Connector) :
    Leaves (opening connector ++ body ++ [closing connector]) m := by
  cases hset : connector.isSet with
  | false =>
    have hcomma : Leaves [','] 0 := .of_bare (by simp)
    have hsymbol : Leaves connector.symbol.toList 0 := .of_bare connector.ne_bracket
    rw [opening_of_not_isSet hset, closing_of_not_isSet hset]
    simpa using ((hsymbol.append hcomma).append h).brackets
  | true =>
    have hends : Leaves (opening connector) 0 ∧ Leaves [closing connector] 0 := by
      cases connector with
      | extensionalSet | intensionalSet => exact ⟨rfl, rfl⟩
      | _ => exact absurd hset (by decide)
    simpa using (hends.1.append h).append hends.2

/-- What stands between the commas of a compound is read, or is a number. -/
theorem leaves_operand {whole : String} {token : List Char} {x : Operand} (hf : Counts read f)
    (h : readOperand read whole token = .ok x) : Leaves token (f token) := by
  obtain ⟨_, ⟨hdigits, _⟩ | ⟨_, d, hd, _⟩⟩ := readOperand_eq_ok.1 h
  · rw [hf.eq_zero (parts_digits hdigits)]
    refine .of_bare fun c hc => ?_
    have hdigit := List.all_eq_true.1 hdigits c hc
    constructor <;> rintro rfl <;> exact absurd hdigit (by decide)
  · exact hf.leaves hd

/-- A compound leaves those brackets open that its operands do. -/
theorem leaves_compound {whole : String} (hf : Counts read f)
    (h : ReadsOperands read whole connector body t) :
    Leaves (opening connector ++ body ++ [closing connector])
      ((operandParts (opening connector ++ body ++ [closing connector])).leaves f) := by
  obtain ⟨tokens, operands, htokens, hoperands, _⟩ := h
  have hbody : Leaves body (tokens.map f).sum := by
    rw [← (intercalate_splitOperands htokens).2]
    refine .intercalate fun token htoken => ?_
    obtain ⟨x, _, hx⟩ := exists_of_mem_right hoperands.flip htoken
    exact leaves_operand hf hx
  have hall := hbody.compound connector
  cases hset : connector.isSet with
  | false =>
    rw [operandParts_of_not_isSet hset htokens]
    simpa [Parts.leaves, hf.eq_zero (parts_symbol hset)] using hall
  | true =>
    rw [operandParts_of_isSet hset htokens]
    simpa [Parts.leaves] using hall

theorem leaves_readCompound {first : Char} (hf : Counts read f)
    (hfirst : first = '(' ∧ (first :: rest).getLast? = some ')' ∨ opensSet first = true)
    (h : readCompound read (first :: rest) = .ok t) :
    Leaves (first :: rest) ((operandParts (first :: rest)).leaves f) := by
  rcases List.eq_nil_or_concat' rest with rfl | ⟨inner, last, rfl⟩
  · exact absurd h (readCompound_singleton first)
  · rw [← List.cons_append, List.getLast?_concat, Option.some.injEq] at hfirst
    obtain ⟨connector, body, htext, hreads⟩ := (readCompound_eq_ok hfirst).1 h
    rw [htext]
    exact leaves_compound hf hreads

/-- There are no brackets in a name. -/
theorem leaves_name (h : ofName (String.ofList (dropIndices false text)) = .ok t) :
    Leaves text 0 := by
  obtain ⟨_, _, hchars⟩ := ofName_eq_ok.1 h
  rw [String.toList_ofList] at hchars
  have other : ∀ d, d ≠ ',' → isNameChar d = false → d.isDigit = false → d ∉ text := by
    intro d hcomma hname hdigit hd
    exact absurd (hchars d (mem_dropIndices hd hcomma hdigit)) (by simp [hname])
  exact .of_bare fun c hc => ⟨ne_of_mem_of_not_mem hc (other '(' (by decide) rfl rfl),
    ne_of_mem_of_not_mem hc (other ')' (by decide) rfl rfl)⟩

/-- What is read leaves open the round brackets behind the dependencies of variables. -/
theorem leaves_readAt (h : readAt depth text = .ok t) :
    Leaves text ((unread depth text).count '(') := by
  -- On the depth: what is read inside of a term is read with one less.
  induction depth generalizing text t with
  | zero => exact absurd h (by simp [readAt])
  | succ depth ih =>
    have hf : Counts (readAt depth) fun piece => (unread depth piece).count '(' :=
      ⟨ih, fun h => by rw [unread_eq_nil h, List.count_nil]⟩
    rw [count_unread]
    cases text with
    | nil => exact .nil
    | cons first rest =>
      simp only [readAt] at h
      split at h
      · rename_i hfirst
        obtain rfl := eq_of_beq hfirst
        split at h
        · exact absurd h throw_ne_ok
        · rename_i hlast
          have hlast : ('(' :: rest).getLast? = some ')' := by simpa using hlast
          split at h
          · rename_i place copula htop
            obtain ⟨_, _, htext, hleft, hright⟩ := exists_sides rfl hlast htop h
            have hcopula : Leaves copula.symbol.toList 0 := .of_bare copula.ne_bracket
            have hall := ((ih hleft).append (hcopula.append (ih hright))).brackets
            rw [← htext] at hall
            rw [parts_of_topCopula? htop]
            simpa [Parts.leaves] using hall
          · rename_i htop
            rw [parts_of_none htop]
            exact leaves_readCompound hf (.inl ⟨rfl, hlast⟩) h
      · rename_i hfirst
        split at h
        · rename_i hset
          rw [parts, if_neg hfirst, if_pos hset]
          exact leaves_readCompound hf (.inr hset) h
        · rename_i hset
          split at h
          · rename_i hmark
            rw [parts, if_neg hfirst, if_neg hset, if_pos hmark]
            refine leaves_variable ?_ hf h
            constructor <;> rintro rfl <;> exact absurd hmark (by decide)
          · rename_i hmark
            rw [parts, if_neg hfirst, if_neg hset, if_neg hmark]
            exact leaves_name h

/-- What is read closes no round bracket that it has not opened. -/
theorem rises_readAt (h : readAt depth text = .ok t) : Rises text := ⟨_, leaves_readAt h⟩

/-! ## Copulas -/

/-- Where no copula begins in front of a closing bracket, none begins in front of anything else that
no copula is written with. -/
theorem ofSymbol?_take_append {c sep : Char} (hsep : ∀ k : Copula, sep ∉ k.symbol.toList)
    (h : Copula.ofSymbol? (c :: (cs ++ [')']).take 2) = none) (rest : List Char) :
    Copula.ofSymbol? (c :: (cs ++ sep :: rest).take 2) = none := by
  match cs, h with
  | [], _ => exact Copula.ofSymbol?_eq_none (c := sep) (by simp) hsep
  | [a], _ => exact Copula.ofSymbol?_eq_none (c := sep) (by simp) hsep
  | a :: b :: cs, h => exact h

/-- What closes no bracket that it has not opened, and in which no copula is found inside of one
bracket, is passed over inside of any number of brackets. -/
theorem copulasFrom_append {d place : Nat} {sep : Char} (hlevel : openAfter n cs = some m)
    (hsep : ∀ k : Copula, sep ∉ k.symbol.toList)
    (h : 2 ≤ d ∨ ∃ p, copulasFrom p (d + n : Nat) (cs ++ [')']) = []) :
    copulasFrom place (d + n : Nat) (cs ++ sep :: rest) =
      copulasFrom (place + cs.length) (d + m : Nat) (sep :: rest) := by
  -- Along the text in front of the separator, with the level that the walk has reached there.
  induction cs generalizing n place with
  | nil =>
    obtain rfl := Option.some.inj hlevel
    rfl
  | cons c cs ih =>
    rw [openAfter_cons] at hlevel
    obtain ⟨l, hl, hrest⟩ := Option.bind_eq_some_iff.1 hlevel
    have hlength : place + (c :: cs).length = place + 1 + cs.length := by
      rw [List.length_cons, Nat.add_right_comm, Nat.add_assoc]
    rw [hlength, List.cons_append]
    by_cases hopen : c = '('
    · subst hopen
      obtain rfl : n + 1 = l := by simpa [turn] using hl
      have hdepth : ((d + n : Nat) : Int) + 1 = (d + (n + 1) : Nat) := by omega
      rw [copulasFrom_open, hdepth]
      refine ih hrest (h.imp_right fun ⟨p, hp⟩ => ⟨p + 1, ?_⟩)
      rwa [List.cons_append, copulasFrom_open, hdepth] at hp
    · by_cases hclose : c = ')'
      · subst hclose
        obtain ⟨hpos, rfl⟩ : n ≠ 0 ∧ n - 1 = l := by simpa [turn] using hl
        have hdepth : ((d + n : Nat) : Int) - 1 = (d + (n - 1) : Nat) := by omega
        rw [copulasFrom_close, hdepth]
        refine ih hrest (h.imp_right fun ⟨p, hp⟩ => ⟨p + 1, ?_⟩)
        rwa [List.cons_append, copulasFrom_close, hdepth] at hp
      -- At the outermost level, no copula may begin here; with the separator behind it, none does
      -- either.
      · obtain rfl : n = l := by simpa [turn_of_ne hopen hclose] using hl
        have hnone : 2 ≤ d ∨ ∃ p, copulasFrom p (d + n : Nat) (cs ++ [')']) = [] ∧
            (((d + n : Nat) : Int) = 1 → Copula.ofSymbol? (c :: (cs ++ [')']).take 2) = none) := by
          refine h.imp_right fun ⟨p, hp⟩ => ⟨p + 1, ?_⟩
          rw [List.cons_append] at hp
          have hfirst : ((d + n : Nat) : Int) = 1 →
              Copula.ofSymbol? (c :: (cs ++ [')']).take 2) = none := by
            intro hone
            cases hk : Copula.ofSymbol? (c :: (cs ++ [')']).take 2) with
            | none => rfl
            | some k =>
              rw [hone, copulasFrom_cons_of_some hopen hclose hk] at hp
              exact absurd hp (by simp)
          rw [copulasFrom_cons_of_none hopen hclose hfirst] at hp
          exact ⟨hp, hfirst⟩
        rw [copulasFrom_cons_of_none hopen hclose]
        · exact ih hrest (hnone.imp_right fun ⟨p, hp, _⟩ => ⟨p, hp⟩)
        · intro hone
          rcases hnone with hdeep | ⟨_, _, hnone⟩
          · omega
          · exact ofSymbol?_take_append hsep (hnone hone) rest

end Term

end NonAxiomatic
