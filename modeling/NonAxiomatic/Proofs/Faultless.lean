import NonAxiomatic.Proofs.Slicing
import NonAxiomatic.Proofs.Utterances

/-!
# Reading comes to no fault

Behind its statement, a sentence may hold characters of any length in bytes. All its places are
found next to characters of one byte, or are those of a word that was found, so that what is sliced
there begins and ends between characters, too. What a sentence adds to its cycle may be too much.

* `Sliced.gives_readUtterance`: what a sentence says is read without a fault.
* `Sliced.run_parseSentence_eq_error_iff`: reading a sentence by places adds no fault to the one of
  a cycle too far to come.

**Theorem (`Sliced.parse_without_fault`).** Reading terms and sentences by places never comes to a
fault, at any cycle that leaves room for the future, and reads what is read without places.
-/

namespace NonAxiomatic

namespace Sliced

open Text

variable {cycle : Cycle} {ids : IdSupply}

/-! ## Behind the statement -/

theorem gives_splitStatement (whole : String) (text : List Char) :
    Gives (splitStatement whole text) (Utterance.splitStatement whole text) := by
  rw [splitStatement, Utterance.splitStatement, placeOf?_eq, lastPlaceOf?_eq]
  cases hopen : cutFirst? '(' text with
  | none => rfl
  | some parts =>
    obtain ⟨before, inner⟩ := parts
    cases hclose : cutLast? ')' text with
    | none => rfl
    | some parts =>
      obtain ⟨statement, rest⟩ := parts
      simp only [Option.map_some]
      -- A first bracket anywhere else is refused before anything is sliced.
      by_cases hbefore : before = []
      · subst hbefore
        have hne : statement ≠ [] := by
          rintro rfl
          have hboth := (eq_of_cutFirst? hopen).symm.trans (eq_of_cutLast? hclose)
          simp at hboth
        have htext : text = (statement ++ [')']) ++ rest := by
          rw [eq_of_cutLast? hclose, List.append_assoc, List.singleton_append]
        rw [if_neg (by simp), if_pos (by simpa using hne), ← byteCount_concat (x := ')') rfl, htext]
        refine (Gives.lift (sliceTo_append _ rest)).bind_ok ?_
        exact (Gives.lift (sliceFrom_append _ rest)).bind_ok rfl
      · have hstart : byteCount before ≠ 0 := fun h => hbefore (byteCount_eq_zero_iff.1 h)
        rw [if_pos (by simp [hstart]), if_neg (by simp [hbefore])]
        rfl

/-- The tense that a text marks, and what stands before and behind its mark. -/
def marked? (text : List Char) : Option (Tense × List Char × List Char) :=
  Tense.marked.findSome? fun tense => (cutWord? tense.symbol.toList text).map (Prod.mk tense)

theorem eq_of_marked? {text before after : List Char} {tense : Tense}
    (h : marked? text = some (tense, before, after)) :
    text = before ++ tense.symbol.toList ++ after := by
  obtain ⟨_, -, hmark⟩ := List.exists_of_findSome?_eq_some h
  obtain ⟨parts, hcut, heq⟩ := Option.map_eq_some_iff.1 hmark
  cases heq
  exact eq_of_cutWord? hcut

/-- The mark of a tense is erased where it was found. -/
theorem takeTense_eq (text : List Char) : takeTense text = .ok (Utterance.takeTense text) := by
  have hplaces : Tense.marked.findSome? (fun tense =>
      (placeOfWord? tense.symbol.toList text).map fun place => (tense, place)) =
        (marked? text).map fun found => (found.1, byteCount found.2.1) := by
    simp only [marked?, List.map_findSome?, Function.comp_def, placeOfWord?_eq, Option.map_map]
  have hpieces : Utterance.takeTense text = ((marked? text).map fun found =>
      (found.1, found.2.1 ++ found.2.2)).getD (.eternal, text) := by
    simp only [marked?, List.map_findSome?, Function.comp_def, Option.map_map]
    rfl
  rw [takeTense, hplaces, hpieces]
  cases hmarked : marked? text with
  | none => rfl
  | some found =>
    obtain ⟨tense, before, after⟩ := found
    have herase := erase_append before tense.symbol.toList after
    rw [← eq_of_marked? hmarked] at herase
    simp only [Option.map_some, herase]
    rfl

theorem gives_readEnding (whole : String) (rest : List Char) :
    Gives (readEnding whole rest) (Utterance.readEnding whole rest) := by
  rw [readEnding, Utterance.readEnding, placeOf?_eq]
  cases hopen : cutFirst? '%' rest with
  | none =>
    simp only [Option.map_none]
    split <;> rfl
  | some parts =>
    obtain ⟨before, inner⟩ := parts
    obtain rfl := eq_of_cutFirst? hopen
    simp only [Option.map_some, lastPlaceOf?_behind (x := '%') rfl]
    cases hclose : cutLast? '%' inner with
    | none => rfl
    | some parts =>
      obtain ⟨block, after⟩ := parts
      obtain rfl := eq_of_cutLast? hclose
      simp only [Option.map_some]
      -- Nothing is behind the closing mark exactly if its place is one before the end.
      have hback : back (byteCount (before ++ '%' :: (block ++ '%' :: after))) 1 =
          .ok (byteCount before + 1 + byteCount block + byteCount after) := by
        have hcount : byteCount (before ++ '%' :: (block ++ '%' :: after)) =
            byteCount before + 1 + byteCount block + byteCount after + 1 := by
          have hmark : '%'.utf8Size = 1 := rfl
          simp only [byteCount_append, byteCount_cons, hmark]
          omega
        rw [hcount, back_eq_ok (Nat.le_add_left 1 _), Nat.add_sub_cancel]
      refine (Gives.lift hback).bind_ok ?_
      by_cases hends : before = [] ∧ after = []
      · obtain ⟨rfl, rfl⟩ := hends
        rw [if_neg (by simp), if_pos (by simp)]
        refine (Gives.lift (slice_behind rfl [] block _)).bind_ok ?_
        exact (Gives.of_except (Utterance.readValue block)).map
      · have hplaces : byteCount before ≠ 0 ∨ byteCount after ≠ 0 := by
          rwa [← not_and_or, byteCount_eq_zero_iff, byteCount_eq_zero_iff]
        rw [if_pos (by simpa using hplaces), if_neg (by simpa using hends)]
        rfl

theorem gives_readUtterance (whole : String) :
    Gives (readUtterance whole) (Utterance.parse whole) := by
  unfold readUtterance Utterance.parse
  refine (gives_splitStatement whole _).bind fun parts _ => ?_
  obtain ⟨statementText, rest⟩ := parts
  refine (gives_parseChars statementText).bind fun statement _ => ?_
  refine Gives.guard fun _ => ?_
  cases rest with
  | nil => rfl
  | cons c rest =>
    dsimp only
    cases Punctuation.ofSymbol? c with
    | none => rfl
    | some mark =>
      refine (Gives.lift (takeTense_eq rest)).bind_ok ?_
      refine (gives_readEnding whole _).bind fun value _ => ?_
      rfl

/-! ## When a sentence happens -/

variable {text : String}

/-- A sentence that does not overshoot is read without a fault. -/
theorem gives_parseSentence (ids : IdSupply) (h : ¬Utterance.Overshoots text cycle) :
    ∃ outcome, Gives (parseSentence text ids cycle) outcome ∧
      Sentence.parse text ids cycle = outcome.mapError .text := by
  have hread := gives_readUtterance text
  cases hu : Utterance.parse text with
  | error cause =>
    rw [hu] at hread
    exact ⟨.error cause, hread.bind_error, Sentence.parse_eq_text_iff.2 hu⟩
  | ok u =>
    rw [hu] at hread
    obtain ⟨occurrence, hat⟩ := Utterance.exists_occurrenceAt hu h
    exact ⟨.ok (.fresh u.statement u.kind ids.peek occurrence, ids.advance),
      hread.bind_ok ((Gives.lift hat).bind_ok rfl),
      Sentence.parse_eq_ok.2 ⟨u, occurrence, hu, hat, rfl, rfl⟩⟩

/-- There is one fault only that reading a sentence may come to, and one way to come to it. -/
theorem run_parseSentence_eq_error_iff {fault : Fault} :
    (parseSentence text ids cycle).run = .error fault ↔
      Sentence.parse text ids cycle = .error (.fault fault) := by
  rw [Sentence.parse_eq_fault_iff]
  by_cases hlate : Utterance.Overshoots text cycle
  · obtain ⟨u, hu, hfuture⟩ := hlate
    have hread := gives_readUtterance text
    rw [hu] at hread
    have hat : Utterance.occurrenceAt cycle u.tense = .error .overflow :=
      Utterance.occurrenceAt_eq_error_iff.2 ⟨rfl, hfuture⟩
    have hrun : (parseSentence text ids cycle).run = .error .overflow := by
      rw [parseSentence, ExceptT.run_bind, hread]
      show ((liftM (Utterance.occurrenceAt cycle u.tense) : Reading _) >>= _).run = _
      rw [hat]
      rfl
    rw [hrun, Except.error.injEq]
    exact ⟨fun h => ⟨h.symm, u, hu, hfuture⟩, fun h => h.1.symm⟩
  · obtain ⟨outcome, hgives, -⟩ := gives_parseSentence ids hlate
    rw [hgives]
    exact iff_of_false (by simp) fun h => hlate h.2

/-- **Main theorem.** Reading a text by its places comes to no fault, whatever characters there are
in it, so long as all cycles it may speak of have a number: no slice is reversed, out of range or
within a character. What is read is the term or sentence of the text, or an error in it. -/
theorem parse_without_fault (text : String) (ids : IdSupply) (cycle : Cycle)
    (h : cycle.toNat < 2 ^ 64 - 5) :
    (parseTerm text).run = .ok (Term.parse text) ∧
      ∃ outcome, (parseSentence text ids cycle).run = .ok outcome ∧
        Sentence.parse text ids cycle = outcome.mapError .text := by
  have hdistance : Utterance.tenseDistance.toNat = 5 := rfl
  have hfits : cycle.toNat + Utterance.tenseDistance.toNat < UInt64.size := by
    rw [hdistance, UInt64.size]
    omega
  exact ⟨gives_parseChars text.toList,
    gives_parseSentence ids (Utterance.not_overshoots hfits text)⟩

/-- At the last such cycle, what is to come happens in the last cycle of all. Characters of several
bytes are refused where they stand. -/
theorem parse_without_fault_latest :
    let latest : Cycle := 0xFFFFFFFFFFFFFFFA
    latest.toNat < 2 ^ 64 - 5 ∧ (parseTerm "[é").run = .ok (.error (.nonAscii 'é')) ∧
      ∀ ids, (parseSentence "(a --> b). %é%" ids latest).run = .ok (.error (.badValue "é")) ∧
        ∃ s ids', (parseSentence "(a --> b). :/:" ids latest).run = .ok (.ok (s, ids')) ∧
          s.occurrence = some 0xFFFFFFFFFFFFFFFF := by
  intro latest
  have hlatest : latest.toNat < 2 ^ 64 - 5 := by decide
  refine ⟨hlatest, (parse_without_fault "[é" {} latest hlatest).1.trans rfl, fun ids => ⟨?_, ?_⟩⟩
  · obtain ⟨outcome, hrun, hparse⟩ := (parse_without_fault "(a --> b). %é%" ids latest hlatest).2
    have hrefused : Sentence.parse "(a --> b). %é%" ids latest =
        .error (.text (.badValue "é")) := rfl
    rw [hrefused] at hparse
    cases outcome with
    | ok => cases hparse
    | error => cases hparse; exact hrun
  · obtain ⟨outcome, hrun, hparse⟩ := (parse_without_fault "(a --> b). :/:" ids latest hlatest).2
    have hread : ∃ s, Sentence.parse "(a --> b). :/:" ids latest = .ok (s, ids.advance) ∧
        s.occurrence = some 0xFFFFFFFFFFFFFFFF := ⟨_, rfl, rfl⟩
    obtain ⟨s, hread, hoccurrence⟩ := hread
    rw [hread] at hparse
    cases outcome with
    | ok => cases hparse; exact ⟨s, _, hrun, hoccurrence⟩
    | error => cases hparse

end Sliced

end NonAxiomatic
