import NonAxiomatic.Proofs.Formed
import NonAxiomatic.Proofs.Schema

/-!
# What two timeless judgments say

A timeless judgment that has held and says something (`Sentence.IsPremise`) brings its own value
into every inference. So it is easy to tell what a rule says that is applied to two of them
(`Standpoint.says_conclude`, `Standpoint.says_concludeRelation`): something that is not vacuous
exactly when the truth function gives it enough confidence. And each rule concludes under its own
name (`Standpoint.rule_syllogism` and so on), so that it can be told which of them has spoken.
-/

namespace NonAxiomatic

/-! ## Premises and conclusions -/

/-- A timeless judgment that has held and says something. -/
structure Sentence.IsPremise (s : Sentence) (v : TruthValue Double) : Prop where
  kind_eq : s.kind = .judgment v
  occurrence_eq : s.occurrence = none
  held : ¬ v.frequency ≤ 0.0
  telling : ¬ v.confidence ≤ Scale.minConfidence
  named : s.statement.Named

namespace Sentence.IsPremise

variable {s : Sentence} {v : TruthValue Double}

theorem value?_eq (h : s.IsPremise v) : s.value? = some v := by
  rw [Sentence.value?, h.kind_eq]
  rfl

theorem punctuation_eq (h : s.IsPremise v) : s.punctuation = .judgment := by
  rw [Sentence.punctuation, h.kind_eq]
  rfl

theorem isEvent_eq (h : s.IsPremise v) : s.isEvent = false := by
  rw [Sentence.isEvent, h.occurrence_eq]
  rfl

theorem isQuestion_eq (h : s.IsPremise v) : s.isQuestion = false := by
  rw [Sentence.isQuestion, h.punctuation_eq]
  rfl

theorem isGoal_eq (h : s.IsPremise v) : s.isGoal = false := by
  rw [Sentence.isGoal, h.punctuation_eq]
  rfl

theorem isVacuous_eq (h : s.IsPremise v) : s.isVacuous = false := by
  rw [Sentence.isVacuous, h.value?_eq]
  exact decide_eq_false h.telling

theorem neverHeld_eq (h : s.IsPremise v) : s.neverHeld = false := by
  rw [Sentence.neverHeld, h.value?_eq]
  exact decide_eq_false h.held

end Sentence.IsPremise

/-- Whether a conclusion that is not vacuous is drawn by a rule, of a statement with a text. -/
def Says (cs : List Conclusion) (rule : Rule) (text : String) : Prop :=
  ∃ c ∈ cs, c.isVacuous = false ∧ c.rule = rule ∧ c.statement.text = text

theorem not_says_nil (rule : Rule) (text : String) : ¬ Says [] rule text := by
  rintro ⟨c, hc, _⟩
  exact absurd hc (by simp)

theorem says_append {cs ds : List Conclusion} {rule : Rule} {text : String} :
    Says (cs ++ ds) rule text ↔ Says cs rule text ∨ Says ds rule text := by
  simp only [Says, List.mem_append, or_and_right, exists_or]

theorem says_toList {o : Option Conclusion} {rule : Rule} {text : String} :
    Says o.toList rule text ↔
      ∃ c, o = some c ∧ c.isVacuous = false ∧ c.rule = rule ∧ c.statement.text = text := by
  simp only [Says, Option.mem_toList]

namespace Standpoint

variable {p : Standpoint} {s t : Sentence} {v w : TruthValue Double} {rule : Rule} {text : String}

/-- Whether a value says something. -/
def Tells (v : TruthValue Double) : Prop := ¬ v.confidence ≤ Scale.minConfidence

/-- What is said by a conclusion from two premises. -/
theorem says_conclude (hs : s.IsPremise v) (ht : t.IsPremise w) {statement : Term}
    {function : TruthFunction} {r : Rule} :
    Says (p.conclude s t statement function r).toList rule text ↔
      statement.headsSentence = true ∧ Tells (function.apply p.settings.horizon v w) ∧
        r = rule ∧ statement.text = text := by
  have hkind : p.kindOf? s t statement function =
      some (.judgment (function.apply p.settings.horizon v w)) := by
    -- Without a time, it does not matter from which cycle the value is seen.
    have hvalue : ∀ {u : Sentence} {x : TruthValue Double}, u.IsPremise x →
        p.premiseValue? statement u = some x := by
      intro u x hu
      rw [premiseValue?, value?, hu.value?_eq, hu.occurrence_eq]
      split <;> rfl
    rw [kindOf?, hs.punctuation_eq, ht.punctuation_eq, hvalue hs, hvalue ht]
    rfl
  rw [says_toList]
  simp only [conclude_eq_some, hkind]
  constructor
  · rintro ⟨c, ⟨hheads, kind, hk, rfl⟩, hvacuous, hrule, htext⟩
    obtain rfl := Option.some.inj hk
    exact ⟨hheads, of_decide_eq_false hvacuous, hrule, htext⟩
  · rintro ⟨hheads, htells, hrule, htext⟩
    exact ⟨_, ⟨hheads, _, rfl, rfl⟩, decide_eq_false htells, hrule, htext⟩

theorem headsSentence_relate (subject : Term) (copula : Copula) (predicate : Term)
    (interval : UInt32) : (Term.relate subject copula predicate interval).headsSentence = true := by
  rw [Term.relate]
  split <;> rfl

/-- What is said by a conclusion that relates two terms. -/
theorem says_concludeRelation (hs : s.IsPremise v) (ht : t.IsPremise w) {subject predicate : Term}
    {copula : Copula} {function : TruthFunction} {r : Rule} :
    Says (p.concludeRelation s t subject copula predicate function r).toList rule text ↔
      (subject == predicate) = false ∧ Tells (function.apply p.settings.horizon v w) ∧
        r = rule ∧ (Term.relate subject copula predicate 0).text = text := by
  rw [concludeRelation]
  by_cases hsame : subject == predicate
  · simp only [hsame, if_true, Bool.true_eq_false, false_and, iff_false]
    exact not_says_nil _ _
  · simp only [Bool.not_eq_true] at hsame
    simp only [hsame, Bool.false_eq_true, if_false, true_and]
    rw [says_conclude hs ht, headsSentence_relate]
    simp only [true_and]

/-! ## Which rule has concluded -/

theorem rule_conclude {c : Conclusion} {statement : Term} {function : TruthFunction} {r : Rule}
    (h : p.conclude s t statement function r = some c) : c.rule = r := by
  obtain ⟨_, _, _, rfl⟩ := conclude_eq_some.1 h
  rfl

theorem rule_concludeRelation {c : Conclusion} {subject predicate : Term} {copula : Copula}
    {function : TruthFunction} {r : Rule}
    (h : p.concludeRelation s t subject copula predicate function r = some c) : c.rule = r := by
  rw [concludeRelation, Option.ite_none_left_eq_some] at h
  exact rule_conclude h.2

theorem rule_syllogism {c : Conclusion} {i j : Side} {function : TruthFunction} {r : Rule}
    (h : p.syllogism s t i j function r = some c) : c.rule = r := by
  simp only [syllogism, Option.bind_eq_bind, Option.bind_eq_some_iff, Prod.exists,
    Option.ite_none_left_eq_some, Option.bind_none] at h
  obtain ⟨_, _, _, _, h⟩ := h
  exact rule_concludeRelation h

theorem rule_comparison {c : Conclusion} (h : p.comparison s t = some c) :
    c.rule = .comparison := by
  simp only [comparison, Option.bind_eq_bind, Option.bind_eq_some_iff, Prod.exists] at h
  obtain ⟨_, _, _, h⟩ := h
  split at h
  · exact rule_concludeRelation h
  · split at h
    · exact rule_concludeRelation h
    · exact absurd h (by simp)

theorem rule_analogy {c : Conclusion} (h : p.analogy s t = some c) : c.rule = .analogy := by
  simp only [analogy, Option.bind_eq_bind, Option.bind_eq_some_iff, Prod.exists,
    Option.ite_none_left_eq_some, Option.bind_none] at h
  obtain ⟨_, _, _, _, _, _, _, _, h⟩ := h
  exact rule_concludeRelation h

theorem rule_join {c : Conclusion} {first higher : Connector} {f g : TruthFunction} {r : Rule}
    (h : p.join s t first higher f g r = some c) : c.rule = r := by
  simp only [join, Option.bind_eq_bind, Option.bind_eq_some_iff, Prod.exists] at h
  obtain ⟨_, _, _, h⟩ := h
  split at h
  · obtain ⟨_, _, h⟩ := Option.bind_eq_some_iff.1 h
    exact rule_conclude h
  · split at h
    · obtain ⟨_, _, h⟩ := Option.bind_eq_some_iff.1 h
      exact rule_conclude h
    · exact absurd h (by simp)

theorem rule_subtractSubjects {c : Conclusion} (h : p.subtractSubjects s t = some c) :
    c.rule = .intensionalDifference := by
  simp only [subtractSubjects, Option.bind_eq_bind, Option.bind_eq_some_iff, Prod.exists,
    Option.ite_none_left_eq_some, Option.bind_none] at h
  obtain ⟨_, _, _, _, _, _, h⟩ := h
  exact rule_conclude h

theorem rule_subtractPredicates {c : Conclusion} (h : p.subtractPredicates s t = some c) :
    c.rule = .extensionalDifference := by
  simp only [subtractPredicates, Option.bind_eq_bind, Option.bind_eq_some_iff, Prod.exists,
    Option.ite_none_left_eq_some, Option.bind_none] at h
  obtain ⟨_, _, _, _, _, _, h⟩ := h
  exact rule_conclude h

theorem rule_conditionalAnalogy {c : Conclusion} (h : p.conditionalAnalogy s t = some c) :
    c.rule = .conditionalAnalogy := by
  simp only [conditionalAnalogy, Option.bind_eq_bind, Option.bind_eq_some_iff,
    Option.ite_none_left_eq_some, Option.bind_none] at h
  obtain ⟨_, _, _, h⟩ := h
  split at h
  · exact rule_conclude h
  · split at h
    · exact rule_conclude h
    · exact absurd h (by simp)

theorem rule_conditionalDeduction {c : Conclusion} (h : p.conditionalDeduction s t = some c) :
    c.rule = .conditionalJudgmentDeduction := by
  simp only [conditionalDeduction, Option.bind_eq_bind, Option.bind_eq_some_iff,
    Option.ite_none_left_eq_some, Option.bind_none] at h
  obtain ⟨_, _, _, h⟩ := h
  exact rule_conclude h

theorem rule_conditionalAbduction {c : Conclusion} (h : p.conditionalAbduction s t = some c) :
    c.rule = .conditionalJudgmentAbduction := by
  simp only [conditionalAbduction, Option.bind_eq_bind, Option.bind_eq_some_iff,
    Option.ite_none_left_eq_some, Option.bind_none] at h
  obtain ⟨_, _, _, h⟩ := h
  exact rule_conclude h

theorem rule_conjunctionalDeduction {c : Conclusion} (h : p.conjunctionalDeduction s t = some c) :
    c.rule = .conditionalConjunctionalDeduction := by
  simp only [conjunctionalDeduction, Option.bind_eq_bind, Option.bind_eq_some_iff] at h
  obtain ⟨_, _, _, _, h⟩ := h
  exact rule_conclude h

theorem rule_conjunctionalAbduction {c : Conclusion} (h : p.conjunctionalAbduction s t = some c) :
    c.rule = .conditionalConjunctionalAbduction := by
  simp only [conjunctionalAbduction, Option.bind_eq_bind, Option.bind_eq_some_iff,
    Option.ite_none_left_eq_some, Option.bind_none] at h
  obtain ⟨_, _, _, _, _, h⟩ := h
  split at h
  · exact rule_conclude h
  · exact absurd h (by simp)

theorem rule_revise {c : Conclusion} (h : revise p s t = some c) : c.rule = .revision := by
  obtain ⟨_, _, _, _, _, h⟩ := revise_eq_some.1 h
  exact rule_conclude h

end Standpoint

end NonAxiomatic
