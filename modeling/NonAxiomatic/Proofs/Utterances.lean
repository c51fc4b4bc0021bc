import NonAxiomatic.Proofs.Reading

/-!
# How sentences are read

A text is cut behind its last bracket. What stands before has to be a statement that sentences can
be about, then come the mark of the sentence and, in any order, the tense and the value
(`Utterance.parse_eq_ok`).
-/

namespace NonAxiomatic

/-- The kind of a sentence with a mark, for a value that goes with it unless it is a question. -/
def Punctuation.kind (value : TruthValue Double) : Punctuation → SentenceKind
  | .judgment => .judgment value
  | .question => .question
  | .goal => .goal value

theorem Punctuation.punctuation_kind (value : TruthValue Double) (mark : Punctuation) :
    (mark.kind value).punctuation = mark := by
  cases mark <;> rfl

namespace Utterance

open Text

variable {whole : String} {u : Utterance}

/-- **Main theorem.** What the text of a sentence has to consist of. -/
theorem parse_eq_ok : parse whole = .ok u ↔
    ∃ statement c rest t mark value,
      splitStatement whole (compact whole.toList) = .ok (statement, c :: rest) ∧
      Term.parseChars statement = .ok t ∧ t.headsSentence = true ∧
      Punctuation.ofSymbol? c = some mark ∧
      readEnding whole (takeTense rest).2 = .ok value ∧
      u = ⟨t, mark.kind (value.getD .default), (takeTense rest).1⟩ := by
  constructor
  · intro h
    unfold parse at h
    obtain ⟨⟨statement, rest⟩, hsplit, h⟩ := bind_eq_ok.1 h
    obtain ⟨t, ht, h⟩ := bind_eq_ok.1 h
    extract_lets finish next at h
    obtain ⟨hheads, h⟩ := guard_eq_ok.1 h
    cases rest with
    | nil => exact absurd h throw_bind_ne_ok
    | cons c rest =>
      cases hmark : Punctuation.ofSymbol? c with
      | none =>
        simp only [next, hmark] at h
        exact absurd h throw_bind_ne_ok
      | some mark =>
        simp only [next, hmark] at h
        obtain ⟨_, hpure, h⟩ := bind_eq_ok.1 h
        obtain rfl := Except.ok.inj hpure
        obtain ⟨value, hvalue, h⟩ := bind_eq_ok.1 h
        refine ⟨statement, c, rest, t, mark, value, hsplit, ht, by simpa using hheads, hmark,
          hvalue, ?_⟩
        rw [← Except.ok.inj h]
        cases mark <;> rfl
  · rintro ⟨statement, c, rest, t, mark, value, hsplit, ht, hheads, hmark, hvalue, rfl⟩
    simp only [parse, hsplit, ht, hheads, hmark, hvalue, bind, Except.bind, pure, Except.pure]
    cases mark <;> rfl

theorem headsSentence_parse (h : parse whole = .ok u) : u.statement.headsSentence = true := by
  obtain ⟨_, _, _, t, _, _, _, _, hheads, _, _, rfl⟩ := parse_eq_ok.1 h
  exact hheads

/-! ## The statement -/

/-- A statement ends with the last bracket. -/
theorem splitStatement_append (whole : String) {rest : List Char} (h : ∀ c ∈ rest, c ≠ ')')
    (inner : List Char) : splitStatement whole ('(' :: (inner ++ [')']) ++ rest) =
      .ok ('(' :: (inner ++ [')']), rest) := by
  have hlast : cutLast? ')' ('(' :: (inner ++ [')']) ++ rest) = some ('(' :: inner, rest) := by
    have hcut := cutLast?_append h ('(' :: inner)
    simpa using hcut
  rw [splitStatement, hlast]
  rfl

theorem head?_of_splitStatement {text : List Char} {parts : List Char × List Char}
    (h : splitStatement whole text = .ok parts) : text.head? = some '(' := by
  rw [splitStatement] at h
  split at h
  · exact absurd h throw_ne_ok
  · rename_i before after hfirst
    split at h
    · exact absurd h throw_ne_ok
    · split at h
      · rename_i hempty
        simp only [Bool.and_eq_true, List.isEmpty_iff] at hempty
        rw [eq_of_cutFirst? hfirst, hempty.1]
        rfl
      · exact absurd h throw_ne_ok

/-! ## The tense -/

/-- A mark is not found in another one. -/
theorem cutWord?_mark {x y : Char} {text : List Char} (hne : x ≠ y) (hx : x ≠ ':')
    (hcolon : ∀ c ∈ text, c ≠ ':') (hnot : ∀ c ∈ text, c ≠ x) :
    cutWord? [':', x, ':'] (':' :: y :: ':' :: text) = none := by
  have hlast : cutWord? [':', x, ':'] (':' :: text) = none := by
    rw [cutWord?, cutWord?_eq_none hcolon]
    cases text with
    | nil => simp
    | cons c text => simp [(hnot c (by simp)).symm]
  rw [cutWord?, cutWord?, hlast]
  simp [hne, hx]

/-- The mark of a tense is found in front of what has no colons in it. -/
theorem takeTense_symbol (tense : Tense) {text : List Char}
    (h : ∀ c ∈ text, c ≠ ':' ∧ c ≠ '/' ∧ c ≠ '\\') :
    takeTense (tense.symbol.toList ++ text) = (tense, text) := by
  have hcolon : ∀ c ∈ text, c ≠ ':' := fun c hc => (h c hc).1
  have hnone : ∀ word : List Char, cutWord? (':' :: word) text = none := fun _ =>
    cutWord?_eq_none hcolon
  have hfuture : ∀ {y : Char}, '/' ≠ y →
      cutWord? [':', '/', ':'] (':' :: y :: ':' :: text) = none :=
    fun hne => cutWord?_mark hne (by decide) hcolon fun c hc => (h c hc).2.1
  have hpast : ∀ {y : Char}, '\\' ≠ y →
      cutWord? [':', '\\', ':'] (':' :: y :: ':' :: text) = none :=
    fun hne => cutWord?_mark hne (by decide) hcolon fun c hc => (h c hc).2.2
  have hfound : ∀ y : Char, cutWord? [':', y, ':'] (':' :: y :: ':' :: text) = some ([], text) := by
    simp [cutWord?]
  cases tense with
  | future => simp [takeTense, Tense.marked, Tense.symbol, hfound]
  | past => simp [takeTense, Tense.marked, Tense.symbol, hfuture, hfound]
  | present => simp [takeTense, Tense.marked, Tense.symbol, hfuture, hpast, hfound]
  | eternal => simp [takeTense, Tense.marked, Tense.symbol, hnone]

/-! ## The value -/

theorem readEnding_value (whole : String) {f c : List Char} {frequency confidence : Double}
    (hf : ∀ d ∈ f, d ≠ ';') (hfrequency : Double.read? f = some frequency)
    (hconfidence : Double.read? c = some confidence) :
    readEnding whole ('%' :: (f ++ ';' :: (c ++ ['%']))) =
      some <$> TruthValue.checked frequency confidence := by
  have hopen : cutFirst? '%' ('%' :: (f ++ ';' :: (c ++ ['%']))) =
      some ([], f ++ ';' :: (c ++ ['%'])) := by
    simp [cutFirst?]
  have hclose : cutLast? '%' (f ++ ';' :: (c ++ ['%'])) = some (f ++ ';' :: c, []) := by
    have hcut := cutLast?_concat '%' (f ++ ';' :: c)
    simpa using hcut
  have hvalue : readValue (f ++ ';' :: c) = TruthValue.checked frequency confidence := by
    rw [readValue, cutFirst?_append hf]
    simp only [hfrequency, hconfidence]
  simp only [readEnding, hopen, hclose, hvalue]
  rfl

/-! ## When a sentence happens -/

variable {text : String} {cycle : Cycle} {tense : Tense} {fault : Fault}

theorem occurrenceAt_future (h : cycle.toNat + tenseDistance.toNat < UInt64.size) :
    occurrenceAt cycle .future = .ok (some (cycle + tenseDistance)) := by
  rw [occurrenceAt, sum64, if_pos h]
  rfl

/-- Only what is to come may be too far away. -/
theorem occurrenceAt_eq_error_iff : occurrenceAt cycle tense = .error fault ↔
    fault = .overflow ∧ tense = .future ∧
      UInt64.size ≤ cycle.toNat + tenseDistance.toNat := by
  cases tense with
  | eternal | present | past => simp [occurrenceAt]
  | future =>
    by_cases hlate : UInt64.size ≤ cycle.toNat + tenseDistance.toNat
    · rw [occurrenceAt, sum64, if_neg (Nat.not_lt.2 hlate)]
      show Except.error Fault.overflow = .error fault ↔ _
      rw [Except.error.injEq]
      exact ⟨fun h => ⟨h.symm, rfl, hlate⟩, fun h => h.1.symm⟩
    · rw [occurrenceAt_future (Nat.not_le.1 hlate)]
      exact iff_of_false (by simp) fun h => hlate h.2.2

/-- The text is a sentence about a cycle to come whose number does not fit its word. -/
def Overshoots (text : String) (cycle : Cycle) : Prop :=
  ∃ u, parse text = .ok u ∧ u.tense = .future ∧
    UInt64.size ≤ cycle.toNat + tenseDistance.toNat

theorem not_overshoots (h : cycle.toNat + tenseDistance.toNat < UInt64.size) (text : String) :
    ¬Overshoots text cycle := by
  rintro ⟨_, -, -, hlate⟩
  exact Nat.not_lt.2 hlate h

theorem exists_occurrenceAt (hu : parse text = .ok u) (h : ¬Overshoots text cycle) :
    ∃ occurrence, occurrenceAt cycle u.tense = .ok occurrence := by
  cases hat : occurrenceAt cycle u.tense with
  | ok occurrence => exact ⟨occurrence, rfl⟩
  | error fault => exact absurd ⟨u, hu, (occurrenceAt_eq_error_iff.1 hat).2⟩ h

end Utterance

/-! ## Sentences -/

namespace Sentence

open Text

variable {text : String} {ids ids' : IdSupply} {cycle : Cycle} {s : Sentence} {fault : Fault}

theorem parse_eq_ok : parse text ids cycle = .ok (s, ids') ↔
    ∃ u occurrence, Utterance.parse text = .ok u ∧
      Utterance.occurrenceAt cycle u.tense = .ok occurrence ∧ ids' = ids.advance ∧
      s = .fresh u.statement u.kind ids.peek occurrence := by
  cases h : Utterance.parse text with
  | error cause => simp [parse, h, Except.mapError, bind, Except.bind]
  | ok u =>
    cases hat : Utterance.occurrenceAt cycle u.tense with
    | error fault => simp [parse, h, hat, Except.mapError, bind, Except.bind]
    | ok occurrence =>
      simp only [parse, h, hat, Except.mapError, bind, Except.bind, pure, Except.pure,
        Except.ok.injEq, Prod.mk.injEq, exists_and_left, exists_eq_left']
      constructor
      · rintro ⟨rfl, rfl⟩
        exact ⟨rfl, rfl⟩
      · rintro ⟨rfl, rfl⟩
        exact ⟨rfl, rfl⟩

theorem parse_eq_text_iff {cause : SyntaxError} : parse text ids cycle = .error (.text cause) ↔
    Utterance.parse text = .error cause := by
  cases h : Utterance.parse text with
  | error cause => simp [parse, h, Except.mapError, bind, Except.bind]
  | ok u =>
    cases hat : Utterance.occurrenceAt cycle u.tense <;>
      simp [parse, h, hat, Except.mapError, bind, Except.bind, pure, Except.pure]

theorem parse_eq_fault_iff (ids : IdSupply) : parse text ids cycle = .error (.fault fault) ↔
    fault = .overflow ∧ Utterance.Overshoots text cycle := by
  cases h : Utterance.parse text with
  | error cause => simp [parse, h, Utterance.Overshoots, Except.mapError, bind, Except.bind]
  | ok u =>
    have hovershoots : Utterance.Overshoots text cycle ↔ u.tense = .future ∧
        UInt64.size ≤ cycle.toNat + Utterance.tenseDistance.toNat := by
      simp [Utterance.Overshoots, h]
    rw [hovershoots, ← Utterance.occurrenceAt_eq_error_iff]
    cases hat : Utterance.occurrenceAt cycle u.tense <;>
      simp [parse, h, hat, Except.mapError, bind, Except.bind, pure, Except.pure]

/-- Neither the identities to come nor the cycle have a part in whether a text is accepted, unless
it speaks of a cycle that has no number. -/
theorem isOk_parse_iff (text : String) (ids : IdSupply) (cycle : Cycle) :
    (parse text ids cycle).isOk = true ↔
      (Utterance.parse text).isOk = true ∧ ¬Utterance.Overshoots text cycle := by
  cases hparse : parse text ids cycle with
  | ok x =>
    obtain ⟨u, _, hu, hat, -⟩ :=
      parse_eq_ok.1 (show parse text ids cycle = .ok (x.1, x.2) from hparse)
    refine iff_of_true rfl ⟨by rw [hu]; rfl, ?_⟩
    intro hlate
    rw [(parse_eq_fault_iff ids).2 ⟨rfl, hlate⟩] at hparse
    cases hparse
  | error e =>
    refine iff_of_false Bool.false_ne_true ?_
    rintro ⟨hok, hlate⟩
    cases e with
    | text cause =>
      rw [parse_eq_text_iff.1 hparse] at hok
      exact Bool.false_ne_true hok
    | fault fault => exact hlate ((parse_eq_fault_iff ids).1 hparse).2

end Sentence

end NonAxiomatic
