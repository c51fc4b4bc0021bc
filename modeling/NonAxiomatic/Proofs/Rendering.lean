import NonAxiomatic.Proofs.Admission
import NonAxiomatic.Proofs.Hundredths
import NonAxiomatic.Proofs.Utterances

/-!
# Reading what was written

A sentence is written without what only its memory knows, and its value with two decimal places.
What stands behind the statement is written so that it is found again: no bracket is in it
(`Sentence.ne_of_mem_ending`), the mark of the tense is found in front of the value, and both
numbers are read as numbers between zero and one again.

The statement is found again as well, since what is read as a statement or a combination of
statements stands in round brackets (`Term.exists_brackets`). Names, sets and other compounds are
found where they stand in brackets, but no sentence is read about them.

**Theorem (`Sentence.parse_renderAt_iff`).** Let the text of a statement be read as the same term.
The text of a sentence about it, seen from a cycle, is read as a sentence about the statement, of
the same kind and in the same tense, exactly if sentences can be about this term.
-/

namespace NonAxiomatic

namespace Term

open Text

variable {text : List Char} {t : Term} {depth : Nat}

/-! ## Terms in brackets -/

theorem utf8ByteSize_compact_le (text : List Char) :
    (String.ofList (compact text)).utf8ByteSize ≤ (String.ofList text).utf8ByteSize := by
  induction text with
  | nil => exact Nat.le_refl _
  | cons c text ih =>
    have hcons : ∀ rest : List Char, (String.ofList (c :: rest)).utf8ByteSize =
        c.utf8Size + (String.ofList rest).utf8ByteSize := by
      intro rest
      rw [String.ofList_cons, String.utf8ByteSize_append, String.utf8ByteSize_singleton]
    rw [hcons, compact, List.filter_cons]
    split
    · rw [hcons]
      exact Nat.add_le_add_left ih _
    · exact Nat.le_add_left_of_le ih

theorem parseChars_eq_ok : parseChars text = .ok t ↔
    (String.ofList text).utf8ByteSize ≤ SyntaxError.maxSentenceBytes ∧
      (∀ c ∈ text, c.toNat < 0x80) ∧ readAt (maxDepth + 1) (compact text) = .ok t := by
  simp only [parseChars]
  split
  · rename_i hlong
    simp [Nat.not_le_of_lt hlong]
  · rename_i hshort
    split
    · rename_i c hc
      have hbig := List.find?_some hc
      have hmem := List.mem_of_find?_eq_some hc
      simp only [decide_eq_true_eq] at hbig
      simp only [reduceCtorEq, false_iff, not_and]
      exact fun _ hall => absurd (hall c hmem) (Nat.not_lt_of_le hbig)
    · rename_i hnone
      have hall : ∀ c ∈ text, c.toNat < 0x80 := by
        simpa using hnone
      exact ⟨fun h => ⟨Nat.le_of_not_lt hshort, hall, h⟩, fun h => h.2.2⟩

/-- Blank characters do not matter for what is read. -/
theorem parseChars_compact (h : parseChars text = .ok t) : parseChars (compact text) = .ok t := by
  obtain ⟨hsize, hascii, hread⟩ := parseChars_eq_ok.1 h
  refine parseChars_eq_ok.2 ⟨(utf8ByteSize_compact_le text).trans hsize, fun c hc => ?_, ?_⟩
  · exact hascii c (List.mem_filter.1 hc).1
  · rwa [compact_compact]

/-- What is read from a text that begins with a round bracket ends with one. -/
theorem exists_brackets (h : readAt depth text = .ok t) (hfirst : text.head? = some '(') :
    ∃ inner, text = '(' :: (inner ++ [')']) := by
  obtain ⟨n, rfl⟩ := exists_succ_of_readAt h
  cases text with
  | nil => exact absurd hfirst (by simp)
  | cons first rest =>
    obtain rfl := Option.some.inj hfirst
    simp only [readAt, beq_self_eq_true, if_true] at h
    split at h
    · exact absurd h throw_ne_ok
    · rename_i hlast
      rcases List.eq_nil_or_concat' rest with rfl | ⟨inner, last, rfl⟩
      · exact absurd rfl hlast
      · rw [← List.cons_append, List.getLast?_concat] at hlast
        simp only [bne_iff_ne, ne_eq, Option.some.injEq, not_not] at hlast
        exact ⟨inner, hlast ▸ rfl⟩

/-- No sentence is about a set, or about what several elements make of it. -/
theorem headsSentence_compose_of_isSet {connector : Connector} (h : connector.isSet = true)
    (operands : List Term) (intervals : List UInt32) :
    (compose connector operands intervals).headsSentence = false := by
  rw [compose]
  cases connector with
  | extensionalSet | intensionalSet => split <;> rfl
  | _ => exact absurd h (by decide)

/-- What sentences can be about is read from text that begins with a round bracket. -/
theorem head?_of_headsSentence (h : readAt depth text = .ok t) (hheads : t.headsSentence = true) :
    text.head? = some '(' := by
  obtain ⟨n, rfl⟩ := exists_succ_of_readAt h
  cases text with
  | nil => exact absurd h (by simp [readAt])
  | cons first rest =>
    simp only [readAt] at h
    split at h
    · rename_i hfirst
      rw [eq_of_beq hfirst]
      rfl
    · split at h
      · rename_i hset
        rcases List.eq_nil_or_concat' rest with rfl | ⟨inner, last, rfl⟩
        · exact absurd h (readCompound_singleton first)
        · obtain ⟨connector, body, htext, _, _, _, _, _, rfl⟩ :=
            (readCompound_eq_ok (.inr hset)).1 h
          cases hconnector : connector.isSet with
          | true =>
            rw [headsSentence_compose_of_isSet hconnector] at hheads
            exact absurd hheads (by decide)
          | false =>
            rw [opening_of_not_isSet hconnector] at htext
            rw [(List.cons.inj htext).1]
            rfl
      · split at h
        · obtain ⟨_, _, _, hvariable, _⟩ := readVariable_eq_ok h
          rw [(ofVariable_eq_ok.1 hvariable).1] at hheads
          exact absurd hheads (by simp [headsSentence])
        · rw [(ofName_eq_ok.1 h).1] at hheads
          exact absurd hheads (by simp [headsSentence])

end Term

/-! ## Values -/

namespace TruthValue

open Text

variable {v : TruthValue Double} {c : Char}

/-- The characters of a value. -/
def isValueChar (c : Char) : Bool :=
  c.isDigit || c == '.' || c == '-' || c == '%' || c == ';'

/-- Nothing that matters for the other parts of a sentence is in a value. -/
theorem ne_of_isValueChar (h : isValueChar c = true) :
    isBlank c = false ∧ c ≠ ')' ∧ c ≠ ':' ∧ c ≠ '/' ∧ c ≠ '\\' := by
  have hdigit : c.isDigit = true → 48 ≤ c.toNat ∧ c.toNat ≤ 57 := by
    simp only [Char.isDigit, Bool.and_eq_true, decide_eq_true_eq, ge_iff_le]
    exact id
  have hnumber : (48 ≤ c.toNat ∧ c.toNat ≤ 57) ∨ c.toNat ∈ [46, 45, 37, 59] := by
    simp only [isValueChar, Bool.or_eq_true, beq_iff_eq] at h
    rcases h with (((h | rfl) | rfl) | rfl) | rfl
    · exact .inl (hdigit h)
    all_goals exact .inr (by decide)
  have hne : ∀ d : Char, ¬ ((48 ≤ d.toNat ∧ d.toNat ≤ 57) ∨ d.toNat ∈ [46, 45, 37, 59]) → c ≠ d :=
    fun d hd heq => hd (heq ▸ hnumber)
  refine ⟨?_, hne _ (by decide), hne _ (by decide), hne _ (by decide), hne _ (by decide)⟩
  simp only [List.mem_cons, List.not_mem_nil, or_false] at hnumber
  simp only [isBlank, Bool.or_eq_false_iff, Bool.and_eq_false_iff, decide_eq_false_iff_not,
    beq_eq_false_iff_ne]
  omega

theorem toList_text (v : TruthValue Double) : v.text.toList =
    '%' :: ((Double.fixed 2 v.frequency).toList ++
      ';' :: ((Double.fixed 2 v.confidence).toList ++ ['%'])) := by
  simp [text]

theorem InRange.isShare (h : v.InRange) :
    Double.isShare (Double.fixed 2 v.frequency).toList = true ∧
      Double.isShare (Double.fixed 2 v.confidence).toList = true :=
  ⟨Double.read_fixed h.frequency_nonneg h.frequency_le,
    Double.read_fixed (Double.le_of_lt h.confidence_pos) (Double.le_of_lt h.confidence_lt)⟩

/-- The characters of a number are among those of a value. -/
theorem isValueChar_of_isShare {text : List Char} (h : Double.isShare text = true)
    (hc : c ∈ text) : isValueChar c = true ∧ c ≠ ';' := by
  simp only [Double.isShare, Bool.and_eq_true, List.all_eq_true] at h
  have hchar := h.1 c hc
  refine ⟨by simp only [isValueChar, hchar, Bool.true_or], ?_⟩
  rintro rfl
  exact absurd hchar (by decide)

theorem InRange.isValueChar (h : v.InRange) :
    ∀ c ∈ v.text.toList, TruthValue.isValueChar c = true := by
  intro c hc
  simp only [toList_text, List.mem_cons, List.mem_append, List.not_mem_nil, or_false] at hc
  rcases hc with rfl | hc | rfl | hc | rfl
  · rfl
  · exact (isValueChar_of_isShare h.isShare.1 hc).1
  · rfl
  · exact (isValueChar_of_isShare h.isShare.2 hc).1
  · rfl

theorem exists_read_of_isShare {text : List Char} (h : Double.isShare text = true) :
    ∃ x, Double.read? text = some x ∧ 0.0 ≤ x ∧ x ≤ 1.0 := by
  simp only [Double.isShare, Bool.and_eq_true, Option.any_eq_true, decide_eq_true_eq] at h
  exact h.2

theorem InRange.exists_readEnding (h : v.InRange) (whole : String) :
    ∃ w, Utterance.readEnding whole v.text.toList = .ok (some w) := by
  obtain ⟨frequency, hf, hfzero, hfone⟩ := exists_read_of_isShare h.isShare.1
  obtain ⟨confidence, hc, hczero, _⟩ := exists_read_of_isShare h.isShare.2
  have hnumber : confidence.isNaN = false :=
    Bool.eq_false_iff.2 fun hnan => Double.not_le_of_isNaN_right _ hnan hczero
  refine ⟨.of frequency confidence, ?_⟩
  rw [toList_text, Utterance.readEnding_value whole
    (fun d hd => (isValueChar_of_isShare h.isShare.1 hd).2) hf hc, checked]
  simp [hfzero, hfone, hnumber]

end TruthValue

/-! ## Sentences -/

namespace Sentence

open Text

variable {s : Sentence} {t : Term} {cycle : Cycle} {tense : Tense}

/-- What is written for the value of a sentence. -/
def valueText (s : Sentence) : List Char := (s.value?.map fun v => v.text.toList).getD []

/-- What stands behind the mark of a sentence, without blank characters. -/
def ending (s : Sentence) (tense : Tense) : List Char := tense.symbol.toList ++ s.valueText

theorem isValueChar_valueText (hvalue : ∀ v ∈ s.value?, v.InRange) :
    ∀ c ∈ s.valueText, TruthValue.isValueChar c = true := by
  rw [valueText]
  cases hv : s.value? with
  | none => exact fun c hc => absurd hc List.not_mem_nil
  | some v => exact (hvalue v hv).isValueChar

theorem compact_render (hvalue : ∀ v ∈ s.value?, v.InRange) (tense : Tense) :
    compact (s.render tense).toList =
      compact s.statement.text.toList ++ s.punctuation.symbol :: s.ending tense := by
  have hvalueText : compact s.valueText = s.valueText := List.filter_eq_self.2 fun c hc => by
    rw [(TruthValue.ne_of_isValueChar (isValueChar_valueText hvalue c hc)).1]
    rfl
  have hmark : compact s.punctuation.symbol.toString.toList = [s.punctuation.symbol] := by
    cases s.punctuation <;> decide
  have htense : compact (if tense == .eternal then "" else " " ++ tense.symbol).toList =
      tense.symbol.toList := by
    cases tense <;> decide
  rw [ending, ← hvalueText, valueText]
  simp only [render, String.toList_append, Term.compact_append, hmark, htense]
  cases s.value? with
  | none => simp [compact]
  | some v => simp [compact, isBlank]

/-- No bracket stands behind the statement. -/
theorem ne_of_mem_ending (hvalue : ∀ v ∈ s.value?, v.InRange) (tense : Tense) :
    ∀ c ∈ s.punctuation.symbol :: s.ending tense, c ≠ ')' := by
  have hmark : s.punctuation.symbol ≠ ')' := by
    cases s.punctuation <;> decide
  have htense : ∀ c ∈ tense.symbol.toList, c ≠ ')' := by
    cases tense <;> simp [Tense.symbol]
  intro c hc
  rcases List.mem_cons.1 hc with rfl | hc
  · exact hmark
  · rcases List.mem_append.1 hc with hc | hc
    · exact htense c hc
    · exact (TruthValue.ne_of_isValueChar (isValueChar_valueText hvalue c hc)).2.1

/-- A statement in brackets is found again. -/
theorem splitStatement_render (hvalue : ∀ v ∈ s.value?, v.InRange) {inner : List Char}
    (hbrackets : compact s.statement.text.toList = '(' :: (inner ++ [')'])) (tense : Tense)
    (whole : String) : Utterance.splitStatement whole (compact (s.render tense).toList) =
      .ok (compact s.statement.text.toList, s.punctuation.symbol :: s.ending tense) := by
  rw [compact_render hvalue, hbrackets,
    Utterance.splitStatement_append whole (ne_of_mem_ending hvalue tense)]

/-- The tense is found again. -/
theorem takeTense_ending (hvalue : ∀ v ∈ s.value?, v.InRange) (tense : Tense) :
    Utterance.takeTense (s.ending tense) = (tense, s.valueText) :=
  Utterance.takeTense_symbol tense fun c hc =>
    (TruthValue.ne_of_isValueChar (isValueChar_valueText hvalue c hc)).2.2

/-- The value is read again, although not the same value. -/
theorem exists_readEnding (hvalue : ∀ v ∈ s.value?, v.InRange) (whole : String) :
    ∃ value, Utterance.readEnding whole s.valueText = .ok value := by
  rw [valueText]
  cases hv : s.value? with
  | none => exact ⟨none, rfl⟩
  | some v =>
    obtain ⟨w, hw⟩ := (hvalue v hv).exists_readEnding whole
    exact ⟨some w, hw⟩

/-- What is read back begins with the bracket of its statement. -/
theorem head?_of_splitStatement_render (hvalue : ∀ v ∈ s.value?, v.InRange)
    {whole : String} {parts : List Char × List Char}
    (hne : compact s.statement.text.toList ≠ [])
    (h : Utterance.splitStatement whole (compact (s.render tense).toList) = .ok parts) :
    (compact s.statement.text.toList).head? = some '(' := by
  have hhead := Utterance.head?_of_splitStatement h
  rwa [compact_render hvalue, List.head?_append_of_ne_nil _ hne] at hhead

/-- A tense is seen again from the cycle that it was seen from. -/
theorem tenseAt_occurrenceAt {u : Term} {kind : SentenceKind} {id : SentenceId}
    {occurrence : Option Cycle}
    (hcycle : cycle.toNat + Utterance.tenseDistance.toNat < 2 ^ 64)
    (hpast : tense = .past → cycle ≠ 0)
    (hat : Utterance.occurrenceAt cycle tense = .ok occurrence) :
    (Sentence.fresh u kind id occurrence).tenseAt cycle = tense := by
  have hdistance : Utterance.tenseDistance.toNat = 5 := rfl
  cases tense with
  | eternal =>
    cases hat
    rfl
  | present =>
    cases hat
    exact (if_neg (UInt64.lt_irrefl cycle)).trans (if_neg (UInt64.lt_irrefl cycle))
  | past =>
    cases hat
    have hpos : 0 < cycle := UInt64.pos_iff_ne_zero.2 (hpast rfl)
    have hearlier : (if cycle < Utterance.tenseDistance then 0
        else cycle - Utterance.tenseDistance) < cycle := by
      split
      · exact hpos
      · rename_i hlate
        rw [UInt64.lt_iff_toNat_lt, hdistance] at hlate
        rw [UInt64.lt_iff_toNat_lt, UInt64.toNat_sub_of_le _ _ (by
          rw [UInt64.le_iff_toNat_le, hdistance]; omega), hdistance]
        omega
    exact if_pos hearlier
  | future =>
    cases (Utterance.occurrenceAt_future hcycle).symm.trans hat
    have hlater : cycle < cycle + Utterance.tenseDistance := by
      rw [UInt64.lt_iff_toNat_lt, UInt64.toNat_add, Nat.mod_eq_of_lt hcycle, hdistance]
      omega
    exact (if_neg (UInt64.not_lt.2 (UInt64.le_of_lt hlater))).trans (if_pos hlater)

theorem ne_zero_of_tenseAt (h : s.tenseAt cycle = .past) : cycle ≠ 0 := by
  rintro rfl
  rw [tenseAt] at h
  split at h
  · exact absurd h (by decide)
  · split at h
    · rename_i hlt
      exact absurd hlt (UInt64.not_lt.2 (by simp))
    · split at h <;> exact absurd h (by decide)

/-- **Main theorem.** The text of a sentence is read as a sentence with an equal statement, of the
same kind and in the same tense, exactly if sentences can be about the term that its statement is
read as. -/
theorem parse_renderAt_iff (hread : Term.parse s.statement.text = .ok t)
    (hsame : (t == s.statement) = true) (hvalue : ∀ v ∈ s.value?, v.InRange)
    (hcycle : cycle.toNat + Utterance.tenseDistance.toNat < 2 ^ 64) (ids : IdSupply) :
    (∃ s' ids', Sentence.parse (s.renderAt cycle) ids cycle = .ok (s', ids') ∧
      (s'.statement == s.statement) = true ∧ s'.punctuation = s.punctuation ∧
      s'.tenseAt cycle = s.tenseAt cycle) ↔ t.headsSentence = true := by
  obtain ⟨_, _, hreadAt⟩ := Term.parseChars_eq_ok.1 hread
  have hstatement := Term.parseChars_compact hread
  constructor
  · rintro ⟨s', ids', hparse, _⟩
    obtain ⟨u, _, hu, _⟩ := Sentence.parse_eq_ok.1 hparse
    obtain ⟨statement, c, rest, t', _, _, hsplit, ht', hheads, _⟩ := Utterance.parse_eq_ok.1 hu
    have hne : compact s.statement.text.toList ≠ [] := by
      intro hnil
      rw [hnil] at hreadAt
      exact absurd hreadAt (by simp [Term.readAt])
    -- What was read begins with a bracket, so that what was cut off is the statement.
    obtain ⟨inner, hbrackets⟩ :=
      Term.exists_brackets hreadAt (head?_of_splitStatement_render hvalue hne hsplit)
    rw [renderAt, splitStatement_render hvalue hbrackets] at hsplit
    rw [(Prod.mk.inj (Except.ok.inj hsplit)).1, ht'] at hstatement
    exact Except.ok.inj hstatement ▸ hheads
  · intro hheads
    obtain ⟨inner, hbrackets⟩ :=
      Term.exists_brackets hreadAt (Term.head?_of_headsSentence hreadAt hheads)
    obtain ⟨value, hending⟩ := exists_readEnding hvalue (s.renderAt cycle)
    have htense := takeTense_ending hvalue (s.tenseAt cycle)
    have hu : Utterance.parse (s.renderAt cycle) =
        .ok ⟨t, s.punctuation.kind (value.getD .default), s.tenseAt cycle⟩ :=
      Utterance.parse_eq_ok.2 ⟨_, _, _, t, s.punctuation, value,
        splitStatement_render hvalue hbrackets _ _, hstatement, hheads,
        Punctuation.ofSymbol?_symbol _, by rw [htense, hending], by rw [htense]⟩
    obtain ⟨occurrence, hat⟩ :=
      Utterance.exists_occurrenceAt hu (Utterance.not_overshoots hcycle _)
    exact ⟨_, _, parse_eq_ok.2 ⟨_, occurrence, hu, hat, rfl, rfl⟩, hsame,
      Punctuation.punctuation_kind _ _, tenseAt_occurrenceAt hcycle ne_zero_of_tenseAt hat⟩

/-- A judgment about a term with the usual value, three cycles after the start. -/
def told (u : Term) : Sentence := .fresh u (.judgment .default) ⟨0⟩ (some 3)

theorem inRange_told (u : Term) : ∀ v ∈ (told u).value?, v.InRange := by
  rintro v hv
  obtain rfl := Option.some.inj hv
  constructor <;> decide

/-- That `a` is a `b`. -/
def relation : Term := .relate (.atom "a") .inheritance (.atom "b") 0

/-- Four cycles later, a judgment about a relation is read back as one about the past. -/
theorem parse_renderAt_past : (told relation).renderAt 7 = "(a --> b). :\\: %1.00;0.90%" ∧
    ∃ s' ids', Sentence.parse ((told relation).renderAt 7) ⟨1⟩ 7 = .ok (s', ids') ∧
      (s'.statement == relation) = true ∧ s'.punctuation = .judgment ∧ s'.tenseAt 7 = .past := by
  have hread : Term.parse (told relation).statement.text = .ok relation := by rfl
  refine ⟨by decide +kernel, ?_⟩
  exact (parse_renderAt_iff hread (Term.beq_iff_text_eq.2 rfl) (inRange_told relation) (by decide)
    ⟨1⟩).2 rfl

/-- A pair of `a` and `b`. -/
def pair : Term := .compound .product [.atom "a", .atom "b"] []

/-- A pair is read as itself, but a judgment about it is not read back. -/
theorem not_parse_renderAt : Term.parse (told pair).statement.text = .ok pair ∧
    (∀ v ∈ (told pair).value?, v.InRange) ∧
    ∀ ids, ¬ ∃ s' ids', Sentence.parse ((told pair).renderAt 7) ids 7 = .ok (s', ids') := by
  refine ⟨by rfl, inRange_told pair, fun ids => ?_⟩
  have herror : (Utterance.parse ((told pair).renderAt 7)).isOk = false := by decide +kernel
  rintro ⟨s', ids', h⟩
  obtain ⟨u, _, hu, _⟩ := Sentence.parse_eq_ok.1 h
  rw [hu] at herror
  exact Bool.noConfusion herror

end Sentence

end NonAxiomatic
