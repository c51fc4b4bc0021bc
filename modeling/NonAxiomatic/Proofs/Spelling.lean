import Mathlib.Algebra.GroupWithZero.Nat
import NonAxiomatic.Term

/-!
# The characters of terms

The text of a term as a list of characters, put together from the characters of its parts.

* `Term.toList_text_compound`, `Term.toList_text_statement`: the characters of a whole.
* `Term.length_text_lt`: a part of a term has a shorter text.
* `Term.mentionsVariable_statement`: a statement is without variables if its two sides are.
* `Term.mentionsVariable_operand`: a compound without variables has operands without variables.
-/

namespace NonAxiomatic

theorem mem_intercalate {α : Type} {sep x : List α} {xs : List (List α)} {c : α} (hx : x ∈ xs)
    (hc : c ∈ x) : c ∈ sep.intercalate xs := by
  induction xs with
  | nil => exact absurd hx (by simp)
  | cons y ys ih =>
    by_cases hys : ys = []
    · subst hys
      obtain rfl := List.mem_singleton.1 hx
      rwa [List.intercalate_singleton]
    · rw [List.intercalate_cons_of_ne_nil hys]
      rcases List.mem_cons.1 hx with rfl | hx
      · simp [hc]
      · simp [ih hx]

theorem length_le_intercalate {α : Type} (sep : List α) {x : List α} {xs : List (List α)}
    (hx : x ∈ xs) :
    x.length ≤ (sep.intercalate xs).length := by
  induction xs with
  | nil => exact absurd hx (by simp)
  | cons y ys ih =>
    by_cases hys : ys = []
    · subst hys
      obtain rfl := List.mem_singleton.1 hx
      exact Nat.le_of_eq (by rw [List.intercalate_singleton])
    · rw [List.intercalate_cons_of_ne_nil hys, List.length_append, List.length_append]
      rcases List.mem_cons.1 hx with rfl | hx
      · omega
      · have := ih hx
        omega

theorem forall_mem_intercalate {α : Type} {p : List α → Prop} {sep : List α} (hnil : p [])
    (hsep : p sep) (happend : ∀ cs ds, p cs → p ds → p (cs ++ ds)) {xs : List (List α)}
    (h : ∀ x ∈ xs, p x) : p (sep.intercalate xs) := by
  induction xs with
  | nil => exact hnil
  | cons x xs ih =>
    have hx := h x (by simp)
    by_cases hxs : xs = []
    · subst hxs
      rwa [List.intercalate_singleton]
    · rw [List.intercalate_cons_of_ne_nil hxs]
      exact happend _ _ (happend _ _ hx hsep) (ih fun y hy => h y (by simp [hy]))

theorem filter_intercalate {α : Type} {p : α → Bool} {sep : List α} (h : sep.filter p = sep)
    (xs : List (List α)) : (sep.intercalate xs).filter p =
      sep.intercalate (xs.map fun x => x.filter p) := by
  induction xs with
  | nil => rfl
  | cons x xs ih =>
    by_cases hxs : xs = []
    · subst hxs
      rw [List.intercalate_singleton, List.map_singleton, List.intercalate_singleton]
    · rw [List.intercalate_cons_of_ne_nil hxs, List.filter_append, List.filter_append, ih, h,
        List.map_cons, List.intercalate_cons_of_ne_nil (by simpa using hxs)]

theorem countP_intercalate {α : Type} {p : α → Bool} {sep : List α} (h : sep.countP p = 0)
    (xs : List (List α)) : (sep.intercalate xs).countP p = (xs.map fun x => x.countP p).sum := by
  induction xs with
  | nil => rfl
  | cons x xs ih =>
    rw [List.map_cons, List.sum_cons]
    by_cases hxs : xs = []
    · subst hxs
      rw [List.intercalate_singleton]
      rfl
    · rw [List.intercalate_cons_of_ne_nil hxs, List.countP_append, List.countP_append, ih, h]
      rfl

namespace Term

theorem ofName_eq_ok {name : String} {t : Term} : ofName name = .ok t ↔
    t = atom name ∧ name ≠ "" ∧ ∀ c ∈ name.toList, isNameChar c = true := by
  unfold ofName
  split
  · rename_i hempty
    simp_all
  · rename_i hne
    split
    · rename_i c hfind
      have hmem := List.mem_of_find?_eq_some hfind
      have hbad := List.find?_some hfind
      simp only [Bool.not_eq_true'] at hbad
      simp only [reduceCtorEq, false_iff, not_and]
      intro _ _ hall
      rw [hall c hmem] at hbad
      exact absurd hbad (by decide)
    · rename_i hfind
      simp only [Except.ok.injEq, eq_comm (a := atom name)]
      refine ⟨fun h => ⟨h, by simpa using hne, ?_⟩, fun h => h.1⟩
      intro c hc
      simpa using List.find?_eq_none.1 hfind c hc

/-- The characters in front of the operands of a compound. -/
def opening (connector : Connector) : List Char :=
  if connector.isSet then connector.symbol.toList else '(' :: connector.symbol.toList ++ [',']

/-- The character behind the operands of a compound. -/
def closing (connector : Connector) : Char := connector.closing?.getD ')'

theorem toList_text_compound (connector : Connector) (operands : List Term)
    (intervals : List UInt32) :
    (compound connector operands intervals).text.toList =
      opening connector ++ [','].intercalate (operands.map fun t => t.text.toList) ++
        [closing connector] := by
  rw [text, texts_eq_map]
  cases connector <;>
    simp [Connector.closing?, opening, closing, Connector.isSet, Connector.symbol,
      String.toList_intercalate, List.map_map, Function.comp_def]

theorem toList_text_statement (subject : Term) (copula : Copula) (predicate : Term)
    (interval : UInt32) :
    (statement subject copula predicate interval).text.toList =
      '(' :: (subject.text.toList ++ ' ' :: (copula.symbol.toList ++ ' ' ::
        (predicate.text.toList ++ [')']))) := by
  rw [text]
  simp

/-- The characters of a variable's dependencies, behind its name. -/
def dependencyList (dependencies : List (List Char)) : List Char :=
  if dependencies = [] then [] else '(' :: ([','].intercalate dependencies ++ [')'])

theorem toList_text_var (kind : VariableKind) (name : String) (dependencies : List Term) :
    (var kind name dependencies).text.toList = kind.symbol :: (name.toList ++
      dependencyList (dependencies.map fun t => t.text.toList)) := by
  rw [text, texts_eq_map]
  cases dependencies with
  | nil => simp [dependencyList]
  | cons t ts => simp [dependencyList, String.toList_intercalate, Function.comp_def]

/-- A part of a term has a shorter text. -/
theorem length_text_lt {t part : Term} (h : part ∈ t.components) :
    part.text.length < t.text.length := by
  rw [← String.length_toList, ← String.length_toList]
  cases t with
  | atom | var => exact absurd h (by simp [components])
  | compound connector operands intervals =>
    have hmem : part.text.toList ∈ operands.map fun t => t.text.toList :=
      List.mem_map.2 ⟨part, h, rfl⟩
    have := length_le_intercalate [','] hmem
    rw [toList_text_compound, List.length_append, List.length_append, List.length_singleton]
    omega
  | statement subject copula predicate interval =>
    rw [toList_text_statement]
    simp only [List.length_cons, List.length_append, List.length_nil]
    rcases List.mem_cons.1 h with rfl | h
    · omega
    · obtain rfl := List.mem_singleton.1 h
      omega

theorem mentionsVariable_eq_false_iff {t : Term} :
    t.mentionsVariable = false ↔ ∀ c ∈ t.text.toList, c ≠ '#' ∧ c ≠ '?' := by
  simp [mentionsVariable]

theorem mentionsVariable_var (kind : VariableKind) (name : String) (dependencies : List Term) :
    (var kind name dependencies).mentionsVariable = true := by
  have hsymbol : (kind.symbol == '#' || kind.symbol == '?') = true := by
    cases kind <;> rfl
  rw [mentionsVariable, text]
  split <;> simp [hsymbol]

theorem mentionsVariable_statement {subject predicate : Term} {copula : Copula}
    {interval : UInt32} : (statement subject copula predicate interval).mentionsVariable = false ↔
      subject.mentionsVariable = false ∧ predicate.mentionsVariable = false := by
  have hsymbol : ∀ c ∈ copula.symbol.toList, c ≠ '#' ∧ c ≠ '?' := by
    cases copula <;> simp [Copula.symbol]
  simp only [mentionsVariable_eq_false_iff, toList_text_statement, List.mem_cons, List.mem_append,
    List.not_mem_nil, or_false]
  constructor
  · intro h
    exact ⟨fun c hc => h c (.inr (.inl hc)), fun c hc => h c (by simp [hc])⟩
  · rintro ⟨hs, hp⟩ c (rfl | hc | rfl | hc | rfl | hc | rfl)
    · decide
    · exact hs c hc
    · decide
    · exact hsymbol c hc
    · decide
    · exact hp c hc
    · decide

theorem mentionsVariable_operand {connector : Connector} {operands : List Term}
    {intervals : List UInt32} {t : Term}
    (h : (compound connector operands intervals).mentionsVariable = false) (ht : t ∈ operands) :
    t.mentionsVariable = false := by
  rw [mentionsVariable_eq_false_iff] at h ⊢
  intro c hc
  apply h c
  rw [toList_text_compound]
  simp only [List.mem_append]
  exact .inl (.inr (mem_intercalate (List.mem_map.2 ⟨t, ht, rfl⟩) hc))

end Term

end NonAxiomatic
