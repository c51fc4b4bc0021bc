import NonAxiomatic.Proofs.Exchange
import NonAxiomatic.Proofs.Revising

/-!
# Events in their order

Two events are combined in the order in which they happen, whichever of them is handed over first
(`Succession.inOrder?_of_lt`). Events that happen at once have no such order, and are combined as
they are handed over (`Succession.inOrder?_of_eq`).

Sequences and implications keep the order. The two sides of an equivalence may change places, so
that they are sorted by their texts, whichever happens first.

**Theorem (`Succession.earlier_first_iff`).** The earlier event comes first in everything that is
concluded from two events, exactly if it is no equivalence or the texts of the events are in the
same order.

**Theorem (`Succession.conjunction_comm_iff`).** It makes no difference to a conjunction which of
two events is handed over first exactly if they do not happen at once.
-/

namespace NonAxiomatic

/-- What a conclusion is about: its text, and its intervals. -/
def Conclusion.subject (c : Conclusion) : String × List UInt32 :=
  (c.statement.text, c.statement.layout)

namespace Succession

/-- What two events may be combined to. -/
inductive Form where
  /-- Both happen. -/
  | conjunction
  /-- One leads to the other. -/
  | implication
  /-- They come together. -/
  | equivalence
deriving DecidableEq

/-- Two statements in a form, of which the first one happens so many cycles before the second. -/
def Form.sequence : Form → Term → Term → UInt32 → Term
  | conjunction, t, u, gap => .compound .sequentialConjunction [t, u] [gap]
  | implication, t, u, gap => .statement t .predictiveImplication u gap
  | equivalence, t, u, gap => .statement t .predictiveEquivalence u gap

/-- What is concluded in a form from two events in their order. -/
def infer (p : Standpoint) : Form → Succession → Option Conclusion
  | .conjunction, e => e.both p
  | .implication, e => e.leadsTo p
  | .equivalence, e => e.accompany p

/-- What is concluded in a form from two events that are handed over in any order. -/
def combine (p : Standpoint) (form : Form) (s t : Sentence) : Option Conclusion :=
  (inOrder? s t).bind (infer p form)

variable {p : Standpoint} {form : Form} {e : Succession} {s t : Sentence} {i j : Cycle}
  {c c' : Conclusion}

/-- Two different events make a conjunction and an implication. -/
theorem inferEvents_eq (h : (s.id == t.id) = false) : p.inferEvents s t =
    (combine p .conjunction s t).toList ++ (combine p .implication s t).toList := by
  rw [Standpoint.inferEvents, h, combine, combine]
  cases inOrder? s t with
  | none => rfl
  | some e => rfl

/-! ## The order -/

/-- The earlier event is the first one in either order. -/
theorem inOrder?_of_lt (hs : s.occurrence = some i) (ht : t.occurrence = some j) (hlt : i < j)
    (hne : (s.statement == t.statement) = false) :
    inOrder? s t = some ⟨s, t, j - i⟩ ∧ inOrder? t s = some ⟨s, t, j - i⟩ := by
  have hne' : (t.statement == s.statement) = false := by rwa [BEq.comm]
  have hnot : ¬j ≤ i := UInt64.not_le.2 hlt
  simp [inOrder?, hs, ht, hne, hne', UInt64.le_of_lt hlt, hnot]

/-- Of events that happen at once, the first one is the one that is handed over first. -/
theorem inOrder?_of_eq (hs : s.occurrence = some i) (ht : t.occurrence = some i)
    (hne : (s.statement == t.statement) = false) : inOrder? s t = some ⟨s, t, 0⟩ := by
  simp [inOrder?, hs, ht, hne]

/-- A gap that is too great for an interval becomes the greatest one. -/
theorem toNat_interval (e : Succession) : e.interval.toNat = min e.gap.toNat (2 ^ 32 - 1) := by
  have hsize : UInt32.size = 2 ^ 32 := rfl
  have hlast : (0 - 1 : UInt32).toNat = 2 ^ 32 - 1 := rfl
  rw [interval, hsize]
  split
  · rw [hlast]
    omega
  · rw [UInt64.toNat_toUInt32]
    omega

/-! ## The statement -/

/-- What is concluded about events that do not happen at once: only an equivalence may have them in
the other order. -/
theorem statement_infer (hgap : e.gap ≠ 0) (h : infer p form e = some c) :
    c.statement =
      if form = .equivalence ∧ e.second.statement.text < e.first.statement.text then
        form.sequence e.second.statement e.first.statement e.interval
      else form.sequence e.first.statement e.second.statement e.interval := by
  have concluded : ∀ {w function rule}, e.conclude p w function rule = some c →
      c.statement = w := by
    intro w function rule hc
    obtain ⟨_, _, _, rfl⟩ := Standpoint.conclude_eq_some.1 hc
    rfl
  cases form with
  | conjunction =>
    have hc := concluded h
    rw [if_neg hgap] at hc
    exact hc
  | implication =>
    have hc := concluded (Option.ite_none_left_eq_some.1 h).2
    rw [if_neg hgap] at hc
    exact hc
  | equivalence =>
    have hc := concluded h
    rw [if_neg hgap, Term.relate] at hc
    simpa [Copula.isSymmetric, Form.sequence] using hc

theorem Form.sequence_inj {t u t' u' : Term} {gap : UInt32}
    (h : form.sequence t u gap = form.sequence t' u' gap) : t = t' ∧ u = u' := by
  cases form <;> simpa [sequence] using h

/-- Something is concluded from sentences with values, if it is not that an operation follows. -/
theorem isSome_infer (hs : e.first.isQuestion = false) (ht : e.second.isQuestion = false)
    (hop : form = .implication → e.second.statement.isOperation = false) :
    (infer p form e).isSome = true := by
  have concluded : ∀ w function rule, w.headsSentence = true →
      (e.conclude p w function rule).isSome = true := by
    intro w function rule hw
    obtain ⟨kind, hkind⟩ := Standpoint.exists_kindOf? (p := p) hs ht w function
    exact Option.isSome_iff_exists.2
      ⟨_, Standpoint.conclude_eq_some.2 ⟨hw, kind, hkind, rfl⟩⟩
  have hrelate : ∀ copula, (Term.relate e.first.statement copula e.second.statement
      e.interval).headsSentence = true := by
    intro copula
    rw [Term.relate]
    split <;> rfl
  cases form with
  | conjunction =>
    refine concluded _ _ _ ?_
    split <;> rfl
  | implication =>
    rw [infer, leadsTo, if_neg (by simp [hop rfl])]
    exact concluded _ _ _ (hrelate _)
  | equivalence => exact concluded _ _ _ (hrelate _)

/-- **Main theorem.** The same is concluded from two events whichever of them is handed over first,
and their gap is kept. The earlier one comes first in it exactly if it is no equivalence or the text
of the earlier event does not come after that of the later one; otherwise it comes second. -/
theorem earlier_first_iff (hs : s.occurrence = some i) (ht : t.occurrence = some j)
    (earlier : i < j) (different : (s.statement == t.statement) = false) (form : Form) :
    combine p form t s = combine p form s t ∧
    (s.isQuestion = false → t.isQuestion = false →
      (form = .implication → t.statement.isOperation = false) →
      (combine p form s t).isSome = true) ∧
    ∀ c, combine p form s t = some c → ∃ gap : UInt32,
      gap.toNat = min (j.toNat - i.toNat) (2 ^ 32 - 1) ∧
      (c.statement = form.sequence s.statement t.statement gap ↔
        ¬(form = .equivalence ∧ t.statement.text < s.statement.text)) ∧
      (form = .equivalence ∧ t.statement.text < s.statement.text →
        c.statement = form.sequence t.statement s.statement gap) := by
  obtain ⟨hst, hts⟩ := inOrder?_of_lt hs ht earlier different
  -- Given in either order, the two are combined as the earlier and the later event.
  have hcombine : combine p form s t = infer p form ⟨s, t, j - i⟩ := by
    rw [combine, hst]
    rfl
  refine ⟨by rw [combine, combine, hst, hts], ?_, ?_⟩
  · intro hsv htv hop
    rw [hcombine]
    exact isSome_infer hsv htv hop
  · intro c hc
    have hle : i.toNat ≤ j.toNat := UInt64.le_iff_toNat_le.1 (UInt64.le_of_lt earlier)
    have hgap : (j - i).toNat = j.toNat - i.toNat :=
      UInt64.toNat_sub_of_le _ _ (UInt64.le_iff_toNat_le.2 hle)
    have hzero : j - i ≠ 0 := by
      intro hzero
      have hlt := UInt64.lt_iff_toNat_lt.1 earlier
      rw [hzero, UInt64.toNat_zero] at hgap
      omega
    rw [hcombine] at hc
    have hstatement := statement_infer hzero hc
    refine ⟨interval ⟨s, t, j - i⟩, by rw [toNat_interval, ← hgap], ?_, ?_⟩
    · rw [hstatement]
      split_ifs with hswap
      · refine iff_of_false (fun hsame => ?_) (not_not.2 hswap)
        obtain ⟨heq, _⟩ := Form.sequence_inj hsame
        rw [heq] at different
        exact absurd different (by simp)
      · exact iff_of_true rfl hswap
    · intro hswap
      rw [hstatement, if_pos hswap]

/-- A judgment about two names that happens at a time. -/
abbrev happening (subject predicate : String) (id : SentenceId) (time : Cycle) : Sentence :=
  .fresh (Standpoint.isA subject predicate) (.judgment .default) id (some time)

/-- What happens first comes second in an equivalence, if its text is the greater one. -/
theorem earlier_second_in_equivalence :
    let s := happening "z" "y" ⟨0⟩ 0
    let t := happening "a" "b" ⟨1⟩ 3
    ∃ c, combine ⟨{}, 0⟩ .equivalence s t = some c ∧
      c.statement = .statement t.statement .predictiveEquivalence s.statement 3 ∧
      c.statement ≠ .statement s.statement .predictiveEquivalence t.statement 3 := by
  intro s t
  obtain ⟨_, hsome, hconcluded⟩ := earlier_first_iff (p := ⟨{}, 0⟩) (s := s) (t := t) rfl rfl
    (by decide) (by decide +kernel) .equivalence
  obtain ⟨c, hc⟩ := Option.isSome_iff_exists.1 (hsome rfl rfl (fun h => absurd h (by decide)))
  obtain ⟨gap, hgap, hiff, hswapped⟩ := hconcluded c hc
  obtain rfl : gap = 3 := UInt32.toNat_inj.1 hgap
  have hafter : Form.equivalence = .equivalence ∧ t.statement.text < s.statement.text :=
    ⟨rfl, by decide +kernel⟩
  exact ⟨c, hc, hswapped hafter, fun hsame => hiff.1 hsame hafter⟩

/-! ## Events that happen at once -/

/-- Two events that happen at once are joined as they are handed over. -/
theorem combine_of_eq (hs : s.occurrence = some i) (ht : t.occurrence = some i)
    (different : (s.statement == t.statement) = false) :
    combine p .conjunction s t =
      p.conclude s t (.compound .parallelConjunction [s.statement, t.statement] [0])
        .intersection .temporalIntersection := by
  rw [combine, inOrder?_of_eq hs ht different]
  rfl

/-- Two sentences lead to something in at least one order. -/
theorem isSome_conclude_or (p : Standpoint) (s t : Sentence) {w w' : Term}
    (hw : w.headsSentence = true) (hw' : w'.headsSentence = true) (function : TruthFunction)
    (rule : Rule) :
    (p.conclude s t w function rule).isSome = true ∨
      (p.conclude t s w' function rule).isSome = true := by
  have concluded : ∀ {s t : Sentence} {w kind}, w.headsSentence = true →
      p.kindOf? s t w function = some kind → (p.conclude s t w function rule).isSome = true :=
    fun hw hkind => Option.isSome_iff_exists.2
      ⟨_, Standpoint.conclude_eq_some.2 ⟨hw, _, hkind, rfl⟩⟩
  by_cases hs : s.isQuestion = true
  · rw [Sentence.isQuestion, beq_iff_eq] at hs
    have hkind : p.kindOf? s t w function = some .question := by rw [Standpoint.kindOf?, hs]
    exact .inl (concluded hw hkind)
  by_cases ht : t.isQuestion = true
  · rw [Sentence.isQuestion, beq_iff_eq] at ht
    have hkind : p.kindOf? t s w' function = some .question := by rw [Standpoint.kindOf?, ht]
    exact .inr (concluded hw' hkind)
  obtain ⟨_, hkind⟩ :=
    Standpoint.exists_kindOf? (p := p) (by simpa using hs) (by simpa using ht) w function
  exact .inl (concluded hw hkind)

/-- Two terms that are joined as they are handed over are told apart by the text of what they are
joined to. -/
theorem text_parallel_ne {t u : Term} (ht : t.Named) (hu : u.Named) (hne : (t == u) = false)
    (intervals intervals' : List UInt32) :
    (Term.compound .parallelConjunction [t, u] intervals).text ≠
      (Term.compound .parallelConjunction [u, t] intervals').text := by
  intro htext
  have hforth : (Term.compound .parallelConjunction [t, u] intervals).Named :=
    .compound (by simp [ht, hu])
  have hback : (Term.compound .parallelConjunction [u, t] intervals').Named :=
    .compound (by simp [ht, hu])
  have hskeleton := (Term.text_eq_iff hforth hback).1 htext
  simp only [Term.untagged, Term.skeleton, Term.skeletons] at hskeleton
  injection hskeleton with _ hoperands
  injection hoperands with hfirst
  have hsame : t.text = u.text := (Term.text_eq_iff ht hu).2 hfirst
  rw [Term.beq_iff_text_eq.2 hsame] at hne
  exact absurd hne (by decide)

/-- Two events that happen at once are joined to something in at least one order, and never to the
same in both. -/
theorem subject_ne_of_eq (hs : s.occurrence = some i) (ht : t.occurrence = some i)
    (different : (s.statement == t.statement) = false) (hsn : s.statement.Named)
    (htn : t.statement.Named) :
    (combine p .conjunction s t).map Conclusion.subject ≠
      (combine p .conjunction t s).map Conclusion.subject := by
  rw [combine_of_eq hs ht different, combine_of_eq ht hs (by rwa [BEq.comm])]
  intro hsame
  have hheads (u v : Term) :
      (Term.compound .parallelConjunction [u, v] [0]).headsSentence = true := rfl
  have hsome := isSome_conclude_or p s t (hheads s.statement t.statement)
    (hheads t.statement s.statement) .intersection .temporalIntersection
  have hsomes := congrArg Option.isSome hsame
  rw [Option.isSome_map, Option.isSome_map] at hsomes
  rw [← hsomes, or_self] at hsome
  obtain ⟨c, hc⟩ := Option.isSome_iff_exists.1 hsome
  obtain ⟨c', hc'⟩ := Option.isSome_iff_exists.1 (hsomes ▸ hsome)
  rw [hc, hc'] at hsame
  obtain ⟨_, _, _, rfl⟩ := Standpoint.conclude_eq_some.1 hc
  obtain ⟨_, _, _, rfl⟩ := Standpoint.conclude_eq_some.1 hc'
  exact text_parallel_ne hsn htn different [0] [0] (congrArg Prod.fst (Option.some.inj hsame))

/-- **Main theorem.** What the conjunction of two events is about does not depend on which of them
is handed over first exactly if they do not happen at once. -/
theorem conjunction_comm_iff (hs : s.occurrence = some i) (ht : t.occurrence = some j)
    (different : (s.statement == t.statement) = false) (hsn : s.statement.Named)
    (htn : t.statement.Named) :
    (combine p .conjunction s t).map Conclusion.subject =
      (combine p .conjunction t s).map Conclusion.subject ↔ i ≠ j := by
  constructor
  · rintro hsame rfl
    exact subject_ne_of_eq hs ht different hsn htn hsame
  · intro hne
    rcases UInt64.lt_or_lt_of_ne hne with hlt | hlt
    · obtain ⟨hst, hts⟩ := inOrder?_of_lt hs ht hlt different
      rw [combine, combine, hst, hts]
    · obtain ⟨hts, hst⟩ := inOrder?_of_lt ht hs hlt (by rwa [BEq.comm])
      rw [combine, combine, hst, hts]

/-- Two events that happen at once have two conjunctions, and only one if they do not. -/
theorem conjunctions_of_two :
    let s := happening "a" "b" ⟨0⟩ 0
    let t := happening "c" "d" ⟨1⟩ 0
    let u := happening "c" "d" ⟨1⟩ 3
    (combine ⟨{}, 0⟩ .conjunction s t).map Conclusion.subject ≠
        (combine ⟨{}, 0⟩ .conjunction t s).map Conclusion.subject ∧
      (combine ⟨{}, 0⟩ .conjunction s u).map Conclusion.subject =
        (combine ⟨{}, 0⟩ .conjunction u s).map Conclusion.subject := by
  intro s t u
  have hs : s.statement.Named := Standpoint.named_isA rfl rfl
  have ht : t.statement.Named := Standpoint.named_isA rfl rfl
  constructor
  · intro hsame
    exact (conjunction_comm_iff rfl rfl (by decide +kernel) hs ht).1 hsame rfl
  · exact (conjunction_comm_iff (t := u) rfl rfl (by decide +kernel) hs ht).2 (by decide)

end Succession

end NonAxiomatic
