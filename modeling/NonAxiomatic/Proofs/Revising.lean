import NonAxiomatic.Proofs.Rebuilding
import NonAxiomatic.Proofs.Schema

/-!
# When sentences are revised

Two sentences about one statement are revised unless one of them asks, or the statement cannot be
that of a sentence (`isSome_revise_iff`): a sequence is written like sequences only, so that its
gaps can be blended (`exists_revisedStatement?`). The revision concerns what its premises concern
(`Sentence.Concerns.revise`), so that it can be revised in its turn.
-/

namespace NonAxiomatic

variable {p : Standpoint} {s t : Sentence} {c : Conclusion} {kind : Punctuation} {u : Term}

/-! ## The statement -/

/-- The revised statement is written like both of its premises. -/
theorem exists_revisedStatement? {v w : TruthValue Double} (hs : s.statement.Named)
    (ht : t.statement.Named) (hv : s.value? = some v) (hw : t.value? = some w)
    (h : s.statement.text = t.statement.text) : ∃ x, revisedStatement? s t = some x ∧
      x.headsSentence = s.statement.headsSentence ∧ x.text = s.statement.text := by
  have hskeleton := (Term.text_eq_iff hs ht).1 h
  rw [revisedStatement?]
  cases hstatement : s.statement with
  | compound connector operands gaps =>
    cases hstatement' : t.statement with
    | compound connector' operands' gaps' =>
      cases connector with
      | sequentialConjunction =>
        refine ⟨Term.compose .sequentialConjunction operands
          (List.zipWith (blendGap v.confidence w.confidence) gaps gaps'), ?_, ?_, ?_⟩
        · simp only [hv, hw]
          rfl
        · rw [Term.compose_of_not_isSet rfl]
          rfl
        · rw [Term.compose_of_not_isSet rfl]
          simp only [Term.composeFlat, Connector.isOrderInvariant, Bool.false_eq_true, if_false,
            Term.text]
      | _ => exact ⟨_, rfl, rfl, rfl⟩
    | _ =>
      rw [hstatement, hstatement'] at hskeleton
      simp [Term.untagged, Term.skeleton] at hskeleton
  | _ => exact ⟨_, rfl, rfl, rfl⟩

/-- A statement of first order is not a sequence and stays as it is. -/
theorem revisedStatement?_of_isFirstOrder (h : s.statement.isFirstOrder = true) :
    revisedStatement? s t = some s.statement := by
  rw [revisedStatement?]
  split
  · rename_i hstatement _
    rw [hstatement] at h
    exact absurd h (by simp [Term.isFirstOrder, Connector.isFirstOrder])
  · rename_i hstatement _
    rw [hstatement] at h
    exact absurd h (by simp [Term.isFirstOrder, Connector.isFirstOrder])
  · rfl

theorem built_revisedStatement? {x : Term} (hs : s.statement.Built)
    (h : revisedStatement? s t = some x) : x.Built := by
  rw [revisedStatement?] at h
  split at h
  · rename_i operands gaps _ _ _ hstatement _
    simp only [Option.bind_eq_bind, Option.bind_eq_some_iff, Option.pure_def,
      Option.some.injEq] at h
    obtain ⟨_, _, _, _, rfl⟩ := h
    have hbuild := hs.build_eq
    rw [hstatement, Term.build_compound_eq_ok] at hbuild
    obtain ⟨ts, hall, heq⟩ := hbuild
    rw [Term.compose_of_not_isSet rfl] at heq
    obtain rfl : operands = ts := (Term.compound.inj heq).2.1
    exact .compose (Term.built_of_buildAll operands hall)
  · exact absurd h (by simp)
  · exact Option.some.inj h ▸ hs

/-! ## The revision -/

theorem Sentence.exists_value? (h : s.isQuestion = false) : ∃ v, s.value? = some v :=
  SentenceKind.exists_value? (beq_eq_false_iff_ne.1 h)

theorem Standpoint.exists_kindOf? (hs : s.isQuestion = false) (ht : t.isQuestion = false)
    (w : Term) (function : TruthFunction) : ∃ kind, p.kindOf? s t w function = some kind := by
  obtain ⟨v, hv⟩ := Sentence.exists_value? hs
  obtain ⟨v', hv'⟩ := Sentence.exists_value? ht
  have hpremise : ∀ {x : Sentence} {v : TruthValue Double}, x.value? = some v →
      ∃ v', p.premiseValue? w x = some v' := by
    intro x v hx
    rw [premiseValue?]
    split
    · exact ⟨v, hx⟩
    · exact ⟨_, by rw [value?, hx]; rfl⟩
  obtain ⟨a, ha⟩ := hpremise hv
  obtain ⟨b, hb⟩ := hpremise hv'
  rw [kindOf?, ha, hb]
  cases hps : s.punctuation <;> cases hpt : t.punctuation <;>
    simp_all [Sentence.isQuestion]

/-- Sentences with a value are revised to a statement that a sentence can have. -/
theorem isSome_revise_of_statement {x : Term} (hs : s.isQuestion = false)
    (ht : t.isQuestion = false) (h : (s.statement == t.statement) = true)
    (hx : revisedStatement? s t = some x) :
    (revise p s t).isSome = true ↔ x.headsSentence = true := by
  obtain ⟨kind, hkind⟩ := Standpoint.exists_kindOf? (p := p) hs ht x .revision
  rw [Option.isSome_iff_exists]
  constructor
  · rintro ⟨c, hc⟩
    obtain ⟨_, _, _, w, hw, hconclude⟩ := Standpoint.revise_eq_some.1 hc
    obtain rfl := Option.some.inj (hx.symm.trans hw)
    exact (Standpoint.conclude_eq_some.1 hconclude).1
  · intro hheads
    exact ⟨_, Standpoint.revise_eq_some.2
      ⟨h, hs, ht, x, hx, Standpoint.conclude_eq_some.2 ⟨hheads, kind, hkind, rfl⟩⟩⟩

/-! ## Sentences about one statement -/

/-- Whether a sentence is of a kind and about a term. -/
structure Sentence.Concerns (kind : Punctuation) (u : Term) (s : Sentence) : Prop where
  punctuation_eq : s.punctuation = kind
  about : (s.statement == u) = true
  built : s.statement.Built

namespace Sentence.Concerns

theorem isQuestion_eq (hs : s.Concerns kind u) (hkind : kind ≠ .question) :
    s.isQuestion = false := by
  rw [isQuestion, hs.punctuation_eq]
  exact beq_eq_false_iff_ne.2 hkind

theorem beq (hs : s.Concerns kind u) (ht : t.Concerns kind u) :
    (s.statement == t.statement) = true := by
  rw [Term.beq_iff_text_eq, Term.beq_iff_text_eq.1 hs.about, Term.beq_iff_text_eq.1 ht.about]

/-- The revision concerns what its premises concern. -/
theorem revise (hs : s.Concerns kind u) (ht : t.Concerns kind u)
    (h : NonAxiomatic.revise p s t = some c) (id : SentenceId) :
    (c.number id).Concerns kind u := by
  refine ⟨?_, ?_, ?_⟩
  · exact (Standpoint.punctuation_revise h (hs.punctuation_eq.trans ht.punctuation_eq.symm)).trans
      hs.punctuation_eq
  · exact Term.beq_iff_text_eq.2
      ((Standpoint.text_revise h).trans (Term.beq_iff_text_eq.1 hs.about))
  · obtain ⟨_, _, _, x, hx, hconclude⟩ := Standpoint.revise_eq_some.1 h
    obtain ⟨_, _, _, rfl⟩ := Standpoint.conclude_eq_some.1 hconclude
    exact built_revisedStatement? hs.built hx

end Sentence.Concerns

end NonAxiomatic
