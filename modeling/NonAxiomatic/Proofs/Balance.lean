import NonAxiomatic.Proofs.Nesting
import NonAxiomatic.Proofs.Rendering

/-!
# Balanced brackets

Which of the texts that are read are balanced (`Balanced`): in no prefix more round brackets are
closed than opened, and in all of the text as many.

The first half holds of every text that is read. The second one fails where there are opening
brackets behind the dependencies of a variable, as what stands there is not read at all, and only
there.

**Theorem (`Term.round_brackets_of_parse`).** No prefix of a text that is read closes more round
brackets than it opens; all of it opens as many as it closes and those that are not read.
-/

namespace NonAxiomatic

/-- In no prefix more round brackets are closed than opened, and as many in all. -/
structure Balanced (cs : List Char) : Prop where
  /-- A prefix closes no more brackets than it opens. -/
  opened : ∀ p, p <+: cs → p.count ')' ≤ p.count '('
  /-- All brackets are closed. -/
  closed : cs.count '(' = cs.count ')'

namespace Term

open Text

variable {cs : List Char} {m n : Nat} {t : Term}

/-! ## Counting open brackets -/

theorem turn_eq_some_iff {c : Char} : turn n c = some m ↔
    [c].count ')' ≤ n + [c].count '(' ∧ n + [c].count '(' = m + [c].count ')' := by
  simp only [turn, List.count_singleton]
  by_cases hopen : c = '('
  · subst hopen
    simp [eq_comm]
  · by_cases hclose : c = ')'
    · subst hclose
      by_cases hn : n = 0
      · simp [hn]
      · have : n - 1 = m ↔ n = m + 1 := by omega
        simp [hn, this]
        omega
    · simp [hopen, hclose]

/-- The brackets that are open behind a text are those it opens and does not close, if no prefix of
it closes too many. -/
theorem openAfter_eq_some_iff : openAfter n cs = some m ↔
    (∀ p, p <+: cs → p.count ')' ≤ n + p.count '(') ∧ n + cs.count '(' = m + cs.count ')' := by
  induction cs generalizing n with
  | nil => simp [openAfter]
  | cons c cs ih =>
    have hcount : ∀ (d : Char) (ds : List Char), (c :: ds).count d = [c].count d + ds.count d := by
      intro d ds
      rw [← List.singleton_append, List.count_append]
    rw [openAfter_cons, Option.bind_eq_some_iff]
    constructor
    -- From the walk to the counts: a prefix is empty or begins with the first character.
    · rintro ⟨l, hl, hrest⟩
      obtain ⟨hfirst, hl⟩ := turn_eq_some_iff.1 hl
      obtain ⟨hopened, hall⟩ := ih.1 hrest
      refine ⟨fun p hp => ?_, by rw [hcount '(' cs, hcount ')' cs]; omega⟩
      obtain rfl | ⟨q, rfl, hq⟩ := List.prefix_cons_iff.1 hp
      · simp
      · have := hopened q hq
        rw [hcount '(' q, hcount ')' q]
        omega
    -- From the counts to the walk: the prefix of one character says that the first step can be
    -- made.
    · rintro ⟨hopened, hall⟩
      have hfirst := hopened [c] ⟨cs, rfl⟩
      refine ⟨n + [c].count '(' - [c].count ')', turn_eq_some_iff.2 ⟨hfirst, by omega⟩, ?_⟩
      rw [hcount '(' cs, hcount ')' cs] at hall
      refine ih.2 ⟨fun q hq => ?_, by omega⟩
      have := hopened (c :: q) (List.cons_prefix_cons.2 ⟨rfl, hq⟩)
      rw [hcount '(' q, hcount ')' q] at this
      omega

theorem openAfter_compact (n : Nat) (cs : List Char) :
    openAfter n (compact cs) = openAfter n cs := by
  induction cs generalizing n with
  | nil => rfl
  | cons c cs ih =>
    rw [compact, List.filter_cons]
    split
    · rw [openAfter_cons, openAfter_cons]
      exact congrArg _ (funext ih)
    · rename_i hblank
      have hplain : c ≠ '(' ∧ c ≠ ')' := by
        constructor <;> rintro rfl <;> exact absurd rfl hblank
      rw [openAfter_cons, turn_of_ne hplain.1 hplain.2, Option.bind_some]
      exact ih n

/-- **Main theorem.** No prefix of a text that is read closes more round brackets than it opens. All
of the text opens as many as it closes and as stand behind the dependencies of variables; so it is
balanced exactly if there are none. -/
theorem round_brackets_of_parse {text : String} (h : parse text = .ok t) :
    (∀ p, p <+: text.toList → p.count ')' ≤ p.count '(') ∧
      text.toList.count '(' = text.toList.count ')' +
        (unread (maxDepth + 1) (compact text.toList)).count '(' ∧
      (Balanced text.toList ↔ '(' ∉ unread (maxDepth + 1) (compact text.toList)) := by
  obtain ⟨_, _, hread⟩ := parseChars_eq_ok.1 h
  have hleaves := leaves_readAt hread
  rw [Leaves, openAfter_compact, openAfter_eq_some_iff] at hleaves
  obtain ⟨hopened, hall⟩ := hleaves
  simp only [Nat.zero_add] at hopened hall
  refine ⟨hopened, by omega, ?_⟩
  rw [← List.count_eq_zero]
  constructor
  · intro hbalanced
    have := hbalanced.closed
    omega
  · intro hnone
    exact ⟨hopened, by omega⟩

/-- A bracket that is opened behind the dependencies of a variable stays open, and the same term is
read without it. -/
theorem round_brackets_of_parse_stray : parse "#y(#x)" = parse "#y(#x)(" ∧
    parse "#y(#x)(" = .ok (.var .dependent "y" [.var .independent "x" []]) ∧
      "#y(#x)(".toList.count '(' = "#y(#x)(".toList.count ')' + 1 ∧
      ¬Balanced "#y(#x)(".toList := by
  have hread : parse "#y(#x)(" = .ok (.var .dependent "y" [.var .independent "x" []]) := rfl
  have hbehind : unread (maxDepth + 1) (compact "#y(#x)(".toList) = ['('] := by decide +kernel
  obtain ⟨_, hcount, hbalanced⟩ := round_brackets_of_parse hread
  rw [hbehind] at hcount hbalanced
  refine ⟨rfl, hread, hcount, ?_⟩
  rw [hbalanced]
  decide

end Term

end NonAxiomatic
