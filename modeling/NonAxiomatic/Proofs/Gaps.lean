import Mathlib.Data.List.ReduceOption
import NonAxiomatic.Proofs.Nesting
import NonAxiomatic.Proofs.Rendering

/-!
# The gaps of a sequence

In the text of a sequence, a number between two operands is the gap between them, and a gap without
a number is one cycle (`Term.SequenceText.meant`). But the numbers are read apart from the operands:
they are taken for the first gaps, and the others are one cycle (`Term.SequenceText.found`).

* `Term.SequenceText.readAt_text`: a sequence is read from the texts of its operands, with numbers
  between them.

**Theorem (`Term.SequenceText.parse_text_iff_meant`).** A sequence is read with the gaps that are
written exactly if it is not too long, and behind a gap without a number there is no other number
than one.
-/

namespace NonAxiomatic

namespace Term

open Text

/-! ## What stands between the commas -/

/-- The text of a number that an interval can have. -/
structure Numeral where
  /-- The characters, with blank ones among them. -/
  text : List Char
  ascii : ∀ c ∈ text, c.toNat < 0x80
  digits : isDigits (compact text) = true
  small : natOfDigits (compact text) < UInt32.size

/-- The interval that a number writes. -/
def Numeral.value (k : Numeral) : UInt32 := (natOfDigits (compact k.text)).toUInt32

/-- A text that is read as the only operand of a sequence. -/
structure OperandText where
  /-- The characters, with blank ones among them. -/
  text : List Char
  /-- The operand. -/
  term : Term
  /-- There is no comma outside of all brackets. -/
  piece : splitOperands 0 (compact text) = some [compact text]
  reads : parseChars (opening .sequentialConjunction ++ text ++ [')']) =
    .ok (compound .sequentialConjunction [term] [])

/-- What may stand between two commas of a compound without changing how the rest of it is read. -/
structure IsToken (cs : List Char) : Prop where
  piece : splitOperands 0 cs = some [cs]
  rises : Rises cs
  /-- No copula is found in it. -/
  bare : ∃ place, copulasFrom place 1 (cs ++ [')']) = []

theorem isToken_name {cs : List Char} (h : ∀ c ∈ cs, isNameChar c = true) : IsToken cs where
  piece := by
    have hsplit := splitOperands_intercalate (List.cons_ne_nil cs [])
      (by simpa using balancedFrom_name h 0)
    rwa [List.intercalate_singleton] at hsplit
  rises := .of_ne fun c hc => ne_of_isNameChar (h c hc) rfl
  bare := ⟨0, by rw [skippedFrom_name h 1 _ _ _ (by decide)]; rfl⟩

namespace Numeral

variable (k : Numeral)

theorem all_isDigit : (compact k.text).all Char.isDigit = true :=
  (Bool.and_eq_true_iff.1 k.digits).2

theorem ne_nil : compact k.text ≠ [] := by
  simpa [isDigits] using (Bool.and_eq_true_iff.1 k.digits).1

theorem isToken : IsToken (compact k.text) := by
  refine isToken_name fun c hc => ?_
  have hdigit := List.all_eq_true.1 k.all_isDigit c hc
  simp [isNameChar, Char.isAlphanum, hdigit]

theorem readOperand_eq (read : List Char → Except SyntaxError Term) (whole : String) :
    readOperand read whole (compact k.text) = .ok (.gap k.value) := by
  refine readOperand_eq_ok.2 ⟨k.ne_nil, .inl ⟨k.all_isDigit, _, ?_, rfl⟩⟩
  have hhead : (compact k.text).head? ≠ some '+' := by
    intro hplus
    have hmem := List.mem_of_head? hplus
    exact absurd (List.all_eq_true.1 k.all_isDigit _ hmem) (by decide)
  simp [word?, hhead, k.digits, k.small]

end Numeral

theorem compact_sequence (cs : List Char) :
    compact (opening .sequentialConjunction ++ cs ++ [')']) =
      '(' :: (Connector.sequentialConjunction.symbol.toList ++ ',' :: compact cs ++ [')']) := by
  rw [compact_append, compact_append]
  rfl

/-- What is found in a sequence is found behind its connector. -/
theorem exists_topCopula?_sequence (cs : List Char) : ∃ place,
    topCopula? ('(' :: (Connector.sequentialConjunction.symbol.toList ++ ',' :: cs ++ [')'])) =
      (copulasFrom place 1 (cs ++ [')'])).getLast? := by
  obtain ⟨place, hplace⟩ := copulasFrom_connector (0 + 1) .sequentialConjunction (cs ++ [')'])
  refine ⟨place, ?_⟩
  rw [← hplace, topCopula?, copulasFrom_open, List.append_assoc, List.cons_append]
  rfl

theorem relate_ne_compound {subject predicate : Term} {copula : Copula} {interval : UInt32}
    {connector : Connector} {operands : List Term} {intervals : List UInt32} :
    relate subject copula predicate interval ≠ compound connector operands intervals := by
  unfold relate
  split <;> simp

theorem compose_sequence (ts : List Term) (intervals : List UInt32) :
    compose .sequentialConjunction ts intervals =
      compound .sequentialConjunction ts (resize (ts.length - 1) 1 intervals) :=
  compose_eq_compound (fun h => absurd h (by decide)) (fun h => absurd h (by decide)) intervals

namespace OperandText

variable (x : OperandText)

theorem ascii : ∀ c ∈ x.text, c.toNat < 0x80 := by
  obtain ⟨_, hascii, _⟩ := parseChars_eq_ok.1 x.reads
  exact fun c hc => hascii c (by simp [hc])

/-- An operand of a sequence is read at its place, and no copula is found in it. -/
theorem read_and_bare : (∃ whole, readOperand (readAt maxDepth) whole (compact x.text) =
      .ok (.term x.term)) ∧ ∃ place, copulasFrom place 1 (compact x.text ++ [')']) = [] := by
  obtain ⟨_, _, hread⟩ := parseChars_eq_ok.1 x.reads
  rw [compact_sequence] at hread
  -- A sequence that is read cannot have been taken for a statement, as what is built then is one.
  cases htop : topCopula? ('(' :: (Connector.sequentialConjunction.symbol.toList ++
      ',' :: compact x.text ++ [')'])) with
  | some found =>
    rw [readAt_statement htop] at hread
    obtain ⟨_, _, _, _, _, _, hrelate⟩ := readStatement_eq_ok.1 hread
    exact absurd hrelate.symm relate_ne_compound
  | none =>
    refine ⟨?_, ?_⟩
    · rw [readAt_compound htop] at hread
      obtain ⟨connector, body, htext, tokens, operands, htokens, hoperands, hne, hcompose⟩ :=
        (readCompound_eq_ok (.inl ⟨rfl, rfl⟩)).1 hread
      have hopening : opening .sequentialConjunction ++ compact x.text ++
          [closing .sequentialConjunction] = opening connector ++ body ++ [closing connector] := by
        rw [← htext]
        rfl
      obtain ⟨rfl, rfl⟩ := opening_append_inj hopening
      obtain rfl := Option.some.inj (x.piece.symm.trans htokens)
      obtain ⟨operand, hoperand, rfl⟩ : ∃ operand, readOperand (readAt maxDepth) _
          (compact x.text) = .ok operand ∧ operands = [operand] := by
        cases hoperands with
        | cons hoperand hnil =>
          cases hnil
          exact ⟨_, hoperand, rfl⟩
      cases operand with
      | gap interval => exact absurd rfl hne
      | term t =>
        rw [compose_sequence] at hcompose
        obtain rfl : x.term = t := by
          injection hcompose with _ hterms
          exact (List.cons.inj hterms).1
        exact ⟨_, hoperand⟩
    · obtain ⟨place, hplace⟩ := exists_topCopula?_sequence (compact x.text)
      rw [htop] at hplace
      exact ⟨place, List.getLast?_eq_none_iff.1 hplace.symm⟩

theorem readOperand_eq (whole : String) :
    readOperand (readAt maxDepth) whole (compact x.text) = .ok (.term x.term) := by
  obtain ⟨⟨_, hread⟩, _⟩ := x.read_and_bare
  exact readOperand_eq_ok.2 (readOperand_eq_ok.1 hread)

theorem isToken : IsToken (compact x.text) where
  piece := x.piece
  rises := by
    obtain ⟨⟨_, hread⟩, _⟩ := x.read_and_bare
    obtain ⟨_, ⟨_, _, _, hgap⟩ | ⟨_, t, ht, _⟩⟩ := readOperand_eq_ok.1 hread
    · exact absurd hgap (by simp)
    · exact rises_readAt ht
  bare := x.read_and_bare.2

end OperandText

/-! ## Tokens side by side -/

/-- Tokens with commas between them are found again. -/
theorem splitOperands_tokens {z : List Char} {zs : List (List Char)} (hz : IsToken z)
    (hzs : ∀ y ∈ zs, IsToken y) :
    splitOperands 0 (z ++ zs.flatMap (',' :: ·)) = some (z :: zs) := by
  induction zs generalizing z with
  | nil =>
    rw [List.flatMap_nil, List.append_nil]
    exact hz.piece
  | cons y ys ih =>
    rw [List.flatMap_cons, List.cons_append, splitOperands_append hz.piece,
      ih (hzs y (by simp)) fun x hx => hzs x (by simp [hx])]
    rfl

theorem comma_not_mem_symbol (k : Copula) : ',' ∉ k.symbol.toList := by
  cases k <;> simp [Copula.symbol]

/-- A token is passed over inside of any brackets, and as many are open behind it or more. -/
theorem IsToken.exists_copulasFrom {z : List Char} (hz : IsToken z) {d : Nat} (hd : 1 ≤ d)
    {sep : Char} (hsep : ∀ k : Copula, sep ∉ k.symbol.toList) (place : Nat) (rest : List Char) :
    ∃ place' d', 1 ≤ d' ∧ copulasFrom place d (z ++ sep :: rest) =
      copulasFrom place' (d' : Nat) (sep :: rest) := by
  obtain ⟨m, hm⟩ := hz.rises
  refine ⟨place + z.length, d + m, by omega, copulasFrom_append (n := 0) hm hsep ?_⟩
  by_cases hone : d = 1
  · subst hone
    exact .inr hz.bare
  · exact .inl (by omega)

/-- No copula is found in tokens with commas between them. -/
theorem copulasFrom_tokens {z : List Char} {zs : List (List Char)} {d : Nat} (hd : 1 ≤ d)
    (hz : IsToken z) (hzs : ∀ y ∈ zs, IsToken y) (place : Nat) :
    copulasFrom place d (z ++ zs.flatMap (',' :: ·) ++ [')']) = [] := by
  induction zs generalizing z d place with
  | nil =>
    obtain ⟨_, _, _, hend⟩ :=
      hz.exists_copulasFrom hd (fun k hk => (k.ne_bracket _ hk).2 rfl) place []
    rw [List.flatMap_nil, List.append_nil, hend]
    rfl
  | cons y ys ih =>
    obtain ⟨place', d', hd', hnext⟩ := hz.exists_copulasFrom hd comma_not_mem_symbol place
      (y ++ ys.flatMap (',' :: ·) ++ [')'])
    rw [List.flatMap_cons, List.cons_append, List.append_assoc, List.cons_append, hnext,
      copulasFrom_cons_of_none (by decide) (by decide) fun _ =>
        Copula.ofSymbol?_eq_none (c := ',') (by simp) comma_not_mem_symbol]
    exact ih hd' (hzs y (by simp)) (fun x hx => hzs x (by simp [hx])) _

/-- Tokens that are read as operands are read as a sequence of the terms among them. -/
theorem readAt_tokens {depth : Nat} {z : List Char} {zs : List (List Char)} (hz : IsToken z)
    (hzs : ∀ y ∈ zs, IsToken y) {operands : List Operand}
    (hread : ∀ whole, List.Forall₂ (fun token x => readOperand (readAt depth) whole token = .ok x)
      (z :: zs) operands) (hne : operands.filterMap Operand.term? ≠ []) :
    readAt (depth + 1) ('(' :: (Connector.sequentialConjunction.symbol.toList ++
      ',' :: (z ++ zs.flatMap (',' :: ·)) ++ [')'])) =
        .ok (compose .sequentialConjunction (operands.filterMap Operand.term?)
          (operands.filterMap Operand.gap?)) := by
  have htop : topCopula? ('(' :: (Connector.sequentialConjunction.symbol.toList ++
      ',' :: (z ++ zs.flatMap (',' :: ·)) ++ [')'])) = none := by
    obtain ⟨place, hplace⟩ := exists_topCopula?_sequence (z ++ zs.flatMap (',' :: ·))
    rw [hplace]
    exact List.getLast?_eq_none_iff.2 (copulasFrom_tokens (Nat.le_refl 1) hz hzs place)
  rw [readAt_compound htop]
  exact (readCompound_eq_ok (.inl ⟨rfl, rfl⟩)).2 ⟨.sequentialConjunction, _, rfl, _, operands,
    splitOperands_tokens hz hzs, hread _, hne, rfl⟩

/-! ## Numbers and gaps -/

/-- The numbers in front of ones are these with ones in front of them only if they are all one. -/
theorem eq_one_of_shifted {gaps : List (Option UInt32)} {a b : Nat}
    (h : gaps.reduceOption ++ List.replicate a 1 =
      List.replicate (b + 1) 1 ++ gaps.map fun gap => gap.getD 1) :
    ∀ gap ∈ gaps, gap = none ∨ gap = some 1 := by
  induction gaps generalizing b with
  | nil => simp
  | cons gap gaps ih =>
    -- A gap that was not written shifts all later ones by a place.
    cases gap with
    | none =>
      have hnext : gaps.reduceOption ++ List.replicate a 1 =
          List.replicate (b + 1 + 1) 1 ++ gaps.map fun gap => gap.getD 1 := by
        rw [List.replicate_succ' (n := b + 1)]
        simpa using h
      simpa using ih hnext
    -- The written gap meets a padded one, so it is one, and so are those after it.
    | some k =>
      rw [List.reduceOption_cons_of_some, List.replicate_succ] at h
      obtain ⟨rfl, hrest⟩ := List.cons.inj h
      have hnext : gaps.reduceOption ++ List.replicate a 1 =
          List.replicate (b + 1) 1 ++ gaps.map fun gap => gap.getD 1 := by
        rw [List.replicate_succ']
        simpa using hrest
      simpa using ih hnext

theorem eq_replicate_of_eq_one {gaps : List (Option UInt32)}
    (h : ∀ gap ∈ gaps, gap = none ∨ gap = some 1) :
    gaps.reduceOption = List.replicate gaps.reduceOption.length 1 ∧
      (gaps.map fun gap => gap.getD 1) = List.replicate gaps.length 1 := by
  refine ⟨List.eq_replicate_iff.2 ⟨rfl, ?_⟩, List.eq_replicate_iff.2 ⟨List.length_map _, ?_⟩⟩
  · intro k hk
    rcases h _ (List.reduceOption_mem_iff.1 hk) with hnone | hone
    · exact absurd hnone (by simp)
    · exact Option.some.inj hone
  · intro k hk
    obtain ⟨gap, hgap, rfl⟩ := List.mem_map.1 hk
    rcases h gap hgap with rfl | rfl <;> rfl

/-- Numbers and gaps without numbers come in the same order as the numbers and then as many ones
exactly if the numbers that stand behind a gap without one are all one. -/
theorem append_replicate_eq_iff (gaps : List (Option UInt32)) :
    gaps.reduceOption ++ List.replicate (gaps.length - gaps.reduceOption.length) 1 =
        gaps.map (fun gap => gap.getD 1) ↔
      gaps.Pairwise fun gap later => gap = none → later = none ∨ later = some 1 := by
  induction gaps with
  | nil => simp
  | cons gap gaps ih =>
    rw [List.pairwise_cons]
    cases gap with
    | some k => simp [ih]
    | none =>
      -- The first gap is not written: the others are shifted, which is no loss only if all of them
      -- are one.
      have hfewer := gaps.reduceOption_length_le
      have hones : (∀ gap ∈ gaps, gap = none ∨ gap = some 1) → ∀ n,
          gaps.reduceOption ++ List.replicate (n - gaps.reduceOption.length) 1 =
            List.replicate (max n gaps.reduceOption.length) (1 : UInt32) := by
        intro h n
        rw [(eq_replicate_of_eq_one h).1, List.replicate_append_replicate, List.length_replicate]
        congr 1
        omega
      show gaps.reduceOption ++ List.replicate (gaps.length + 1 - gaps.reduceOption.length) 1 =
        List.replicate (0 + 1) 1 ++ gaps.map (fun gap => gap.getD 1) ↔ _
      constructor
      · intro h
        have hone := eq_one_of_shifted h
        refine ⟨fun later hlater _ => hone later hlater, ih.1 ?_⟩
        rw [hones hone, (eq_replicate_of_eq_one hone).2, Nat.max_eq_left hfewer]
      · rintro ⟨hlater, _⟩
        have hone := fun later h => hlater later h rfl
        rw [hones hone, (eq_replicate_of_eq_one hone).2, List.replicate_append_replicate]
        congr 1
        omega

/-! ## Sequences -/

/-- The parts of the text of a sequence: operands, and numbers in some of the gaps between them. -/
structure SequenceText where
  /-- The first operand. -/
  first : OperandText
  /-- The other operands, with what is written in the gaps before them. -/
  rest : List (Option Numeral × OperandText)

namespace SequenceText

/-- What stands behind the commas. -/
def tokens (s : SequenceText) : List (List Char) :=
  s.rest.flatMap fun x => (x.1.map Numeral.text).toList ++ [x.2.text]

/-- The text of a sequence. -/
def text (s : SequenceText) : List Char :=
  opening .sequentialConjunction ++ (s.first.text ++ s.tokens.flatMap (',' :: ·)) ++ [')']

/-- The number of bytes of a sequence. -/
def bytes (s : SequenceText) : Nat := (String.ofList s.text).utf8ByteSize

/-- The operands of a sequence. -/
def terms (s : SequenceText) : List Term := s.first.term :: s.rest.map fun x => x.2.term

/-- What is written in the gaps. -/
def gaps (s : SequenceText) : List (Option UInt32) := s.rest.map fun x => x.1.map Numeral.value

/-- The intervals that are written: a gap without a number is one cycle. -/
def meant (s : SequenceText) : List UInt32 := s.gaps.map fun gap => gap.getD 1

/-- The intervals that are read: the numbers, and one cycle for each of the last gaps. -/
def found (s : SequenceText) : List UInt32 :=
  resize s.gaps.length 1 s.gaps.reduceOption

/-- The numbers and the operands behind the first one. -/
def operands (s : SequenceText) : List Operand :=
  s.rest.flatMap fun x => (x.1.map fun k => .gap k.value).toList ++ [.term x.2.term]

variable (s : SequenceText)

theorem ascii : ∀ c ∈ s.text, c.toNat < 0x80 := by
  have htokens : ∀ token ∈ s.tokens, ∀ c ∈ token, c.toNat < 0x80 := by
    intro token htoken
    obtain ⟨⟨gap, x⟩, _, htoken⟩ := List.mem_flatMap.1 htoken
    rcases List.mem_append.1 htoken with htoken | htoken
    · obtain ⟨k, _, rfl⟩ := Option.map_eq_some_iff.1 (Option.mem_toList.1 htoken)
      exact k.ascii
    · obtain rfl := List.mem_singleton.1 htoken
      exact x.ascii
  intro c hc
  simp only [text, List.mem_append, List.mem_flatMap, List.mem_cons, List.not_mem_nil,
    or_false] at hc
  rcases hc with (hc | hc | ⟨token, htoken, rfl | hc⟩) | rfl
  · have hopening : opening .sequentialConjunction = ['(', '&', '/', ','] := rfl
    simp only [hopening, List.mem_cons, List.not_mem_nil, or_false] at hc
    rcases hc with rfl | rfl | rfl | rfl <;> decide
  · exact s.first.ascii c hc
  · decide
  · exact htokens token htoken c hc
  · decide

theorem isToken_tokens : ∀ token ∈ s.tokens.map compact, IsToken token := by
  intro token htoken
  obtain ⟨written, hwritten, rfl⟩ := List.mem_map.1 htoken
  obtain ⟨⟨gap, x⟩, _, hmem⟩ := List.mem_flatMap.1 hwritten
  rcases List.mem_append.1 hmem with hmem | hmem
  · obtain ⟨k, _, rfl⟩ := Option.map_eq_some_iff.1 (Option.mem_toList.1 hmem)
    exact k.isToken
  · obtain rfl := List.mem_singleton.1 hmem
    exact x.isToken

theorem compact_tokens (tokens : List (List Char)) :
    compact (tokens.flatMap (',' :: ·)) = (tokens.map compact).flatMap (',' :: ·) := by
  induction tokens with
  | nil => rfl
  | cons token tokens ih =>
    rw [List.flatMap_cons, compact_append, ih, List.map_cons, List.flatMap_cons]
    rfl

theorem readOperand_tokens (whole : String) :
    List.Forall₂ (fun token x => readOperand (readAt maxDepth) whole token = .ok x)
      (s.tokens.map compact) s.operands := by
  unfold tokens operands
  induction s.rest with
  | nil => exact .nil
  | cons x rest ih =>
    obtain ⟨_ | k, x⟩ := x
    · exact .cons (x.readOperand_eq whole) ih
    · exact .cons (k.readOperand_eq _ whole) (.cons (x.readOperand_eq whole) ih)

theorem term?_operands :
    s.operands.filterMap Operand.term? = s.rest.map fun x => x.2.term := by
  unfold operands
  induction s.rest with
  | nil => rfl
  | cons x rest ih =>
    obtain ⟨_ | k, x⟩ := x <;> exact congrArg _ ih

theorem gap?_operands : s.operands.filterMap Operand.gap? = s.gaps.reduceOption := by
  unfold operands gaps
  induction s.rest with
  | nil => rfl
  | cons x rest ih =>
    obtain ⟨_ | k, x⟩ := x
    · exact ih
    · exact congrArg _ ih

/-- A sequence is read with the numbers in its first gaps. -/
theorem readAt_text : readAt (maxDepth + 1) (compact s.text) =
    .ok (compound .sequentialConjunction s.terms s.found) := by
  have hterms : (Operand.term s.first.term :: s.operands).filterMap Operand.term? = s.terms :=
    congrArg _ s.term?_operands
  have hgaps : (Operand.term s.first.term :: s.operands).filterMap Operand.gap? =
      s.gaps.reduceOption := s.gap?_operands
  have hread := readAt_tokens s.first.isToken s.isToken_tokens
    (fun whole => .cons (s.first.readOperand_eq whole) (s.readOperand_tokens whole))
    (by simp [hterms, terms])
  rw [hterms, hgaps, compose_sequence] at hread
  rw [text, compact_sequence, compact_append, compact_tokens, hread]
  simp [terms, found, gaps]

/-! ## Reading a sequence -/

theorem found_eq_meant_iff : s.found = s.meant ↔
    s.gaps.Pairwise fun gap later => gap = none → later = none ∨ later = some 1 := by
  rw [← append_replicate_eq_iff, found, meant, resize,
    List.take_of_length_le s.gaps.reduceOption_length_le]

/-- **Main theorem.** The text of a sequence that is not too long is read as a sequence of its
operands, with the numbers in the first gaps. They are read in the gaps in which they are written
exactly if behind a gap without a number there is no other number than one. -/
theorem parse_text_iff_meant :
    (s.bytes ≤ SyntaxError.maxSentenceBytes →
      parse (String.ofList s.text) = .ok (compound .sequentialConjunction s.terms s.found)) ∧
    (parse (String.ofList s.text) = .ok (compound .sequentialConjunction s.terms s.meant) ↔
      s.bytes ≤ SyntaxError.maxSentenceBytes ∧
        s.gaps.Pairwise fun gap later => gap = none → later = none ∨ later = some 1) := by
  have hread : ∀ t, parse (String.ofList s.text) = .ok t ↔
      s.bytes ≤ SyntaxError.maxSentenceBytes ∧
        t = compound .sequentialConjunction s.terms s.found := by
    intro t
    rw [parse, String.toList_ofList, parseChars_eq_ok, s.readAt_text, and_iff_right s.ascii,
      Except.ok.injEq, eq_comm (b := t)]
    rfl
  refine ⟨fun hshort => (hread _).2 ⟨hshort, rfl⟩, ?_⟩
  rw [hread, ← s.found_eq_meant_iff]
  refine and_congr_right fun _ => ?_
  simp [eq_comm]

/-- A name of one letter. -/
def oneLetter : OperandText := ⟨['a'], atom "a", rfl, rfl⟩

/-- Three operands, with a number in the first gap or in the second. -/
def threeOperands (inSecond : Bool) : SequenceText :=
  let five : Numeral := ⟨['5'], by simp, rfl, by decide⟩
  ⟨oneLetter, if inSecond then [(none, oneLetter), (some five, oneLetter)]
    else [(some five, oneLetter), (none, oneLetter)]⟩

/-- A number in the second gap is read in the first one. -/
theorem parse_threeOperands :
    parse "(&/,a,5,a,a)" = .ok (compound .sequentialConjunction
      [atom "a", atom "a", atom "a"] [5, 1]) ∧
    parse "(&/,a,a,5,a)" = .ok (compound .sequentialConjunction
      [atom "a", atom "a", atom "a"] [5, 1]) ∧
    parse "(&/,a,a,5,a)" ≠ .ok (compound .sequentialConjunction
      [atom "a", atom "a", atom "a"] [1, 5]) := by
  obtain ⟨_, hfirst⟩ := parse_text_iff_meant (threeOperands false)
  obtain ⟨hsecond, hmeant⟩ := parse_text_iff_meant (threeOperands true)
  refine ⟨hfirst.2 ⟨by decide, by decide +kernel⟩, hsecond (by decide), fun h => ?_⟩
  exact absurd (hmeant.1 h).2 (by decide +kernel)

end SequenceText

end Term

end NonAxiomatic
