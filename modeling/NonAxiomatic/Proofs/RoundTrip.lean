import NonAxiomatic.Proofs.Identity

/-!
# Reading back

Which well-formed terms without variables are read from their own text (`Term.IsReadable`): those
that are legible, nested no deeper than a text may be, and no longer than one. From the text of such
a term a term is read that differs from it in its intervals only, and that its layout makes equal to
it.

What is read never has more characters of names than the text, and fewer if a name was taken for a
number. So a term that is not legible is not read at all, or another one is read.

* `Term.recalls_readAt`: a legible term is read back.
* `Term.survives_of_readAt`: only a legible term is.

**Theorem (`Term.parse_text_iff`).** Reading the text of a term gives the term back exactly if it is
readable.
-/

namespace NonAxiomatic

namespace Term

open Text

variable {t u : Term} {depth : Nat}

/-! ## The parts of a text -/

theorem readAt_spelling_statement {subject predicate : Term} {copula : Copula} {interval : UInt32}
    (left : subject.Named) (right : predicate.Named) :
    readAt (depth + 1) (statement subject copula predicate interval).spelling = .ok u ↔
      ∃ s p, readAt depth subject.spelling = .ok s ∧ readAt depth predicate.spelling = .ok p ∧
        u = relate s copula p
          (if copula.isFirstOrder then 0 else trailingInterval subject.spelling) := by
  obtain ⟨c, cs, hsubject, _⟩ := exists_spelling left
  obtain ⟨p, ps, hpredicate, hp, _⟩ := exists_spelling right
  have hskip := skippedFrom_spelling right
  rw [hpredicate] at hskip
  have htop := topCopula?_statement (skippedFrom_spelling left) hskip
    (not_mem_symbol_of_startsTerm hp) copula
  -- The copula between the two sides is the only one that is outside of their brackets.
  rw [← hpredicate] at htop
  rw [spelling_statement, readAt_statement htop, readStatement_eq_ok]
  have hleft : (('(' :: (subject.spelling ++ (copula.symbol.toList ++ predicate.spelling) ++
      [')'])).take (1 + subject.spelling.length)).drop 1 = subject.spelling := by
    rw [Nat.add_comm, List.take_succ_cons]
    simp
  have hright : (('(' :: (subject.spelling ++ (copula.symbol.toList ++ predicate.spelling) ++
      [')'])).drop (1 + subject.spelling.length + 3)).dropLast = predicate.spelling := by
    have hlength : 1 + subject.spelling.length + 3 =
        (subject.spelling ++ copula.symbol.toList).length + 1 := by
      rw [List.length_append, copula.length_symbol]
      omega
    rw [hlength, List.drop_succ_cons, ← List.append_assoc, List.append_assoc, List.drop_left]
    simp
  rw [hleft, hright]
  exact and_iff_right (by simp [hsubject]) |>.trans (and_iff_right (by simp [hpredicate]))

theorem readAt_spelling_compound {connector : Connector} {operands : List Term}
    {intervals : List UInt32} (h : ∀ t ∈ operands, t.Named) :
    readAt (depth + 1) (compound connector operands intervals).spelling = .ok u ↔
      ReadsOperands (readAt depth)
        (String.ofList (compound connector operands intervals).spelling) connector
        ([','].intercalate (operands.map spelling)) u := by
  have hbody := skippedFrom_operands fun t ht => skippedFrom_spelling (h t ht)
  rw [spelling_compound]
  generalize [','].intercalate (operands.map spelling) = body at hbody ⊢
  obtain ⟨first, inner, last, htext, hfirst, hread⟩ : ∃ first inner last,
      opening connector ++ body ++ [closing connector] = first :: (inner ++ [last]) ∧
        (first = '(' ∧ last = ')' ∨ opensSet first = true) ∧
        readAt (depth + 1) (first :: (inner ++ [last])) =
          readCompound (readAt depth) (first :: (inner ++ [last])) := by
    cases hset : connector.isSet with
    | false =>
      rw [opening_of_not_isSet hset, closing_of_not_isSet hset]
      refine ⟨'(', connector.symbol.toList ++ ',' :: body, ')', by simp, .inl ⟨rfl, rfl⟩, ?_⟩
      exact readAt_compound (topCopula?_compound connector hbody)
    | true =>
      obtain ⟨c, hc, hbracket⟩ := exists_opening_of_isSet hset
      rw [opening_of_ofBracket? hbracket]
      exact ⟨c, body, closing connector, rfl, .inr hc, readAt_set hc _⟩
  rw [htext, hread, readCompound_eq_ok hfirst]
  constructor
  · rintro ⟨connector', body', heq, hreads⟩
    obtain ⟨rfl, rfl⟩ := opening_append_inj (htext.trans heq)
    exact hreads
  · intro hreads
    exact ⟨connector, body, htext.symm, hreads⟩

theorem readOperand_spelling (h : t.Named) (hnumber : t.isNumber = false) {whole : String}
    {x : Operand} : readOperand (readAt depth) whole t.spelling = .ok x ↔
      ∃ u, readAt depth t.spelling = .ok u ∧ x = .term u := by
  obtain ⟨c, cs, hspelling, _, hdigits⟩ := exists_spelling h
  rw [readOperand_eq_ok, hspelling, hdigits, hnumber]
  simp

theorem readOperands_spelling {ts : List Term} {whole : String} {xs : List Operand}
    (named : ∀ t ∈ ts, t.Named) (terms : ∀ t ∈ ts, t.isNumber = false) :
    List.Forall₂ (fun t x => readOperand (readAt depth) whole t.spelling = .ok x) ts xs ↔
      ∃ us, List.Forall₂ (fun t u => readAt depth t.spelling = .ok u) ts us ∧
        xs = us.map Operand.term := by
  induction ts generalizing xs with
  | nil => simp [List.forall₂_nil_left_iff]
  | cons t ts ih =>
    rw [List.forall_mem_cons] at named terms
    simp only [List.forall₂_cons_left_iff, readOperand_spelling named.1 terms.1,
      ih named.2 terms.2]
    constructor
    · rintro ⟨_, _, ⟨u, hu, rfl⟩, ⟨us, hus, rfl⟩, rfl⟩
      exact ⟨u :: us, ⟨u, us, hu, hus, rfl⟩, rfl⟩
    · rintro ⟨_, ⟨u, us, hu, hus, rfl⟩, rfl⟩
      exact ⟨_, _, ⟨u, hu, rfl⟩, ⟨us, hus, rfl⟩, rfl⟩

/-- A compound whose operands are no numbers is read exactly if they are, and if there are no
property copulas in them. -/
theorem readAt_spelling_terms {connector : Connector} {operands : List Term}
    {intervals : List UInt32} (hne : operands ≠ []) (named : ∀ t ∈ operands, t.Named)
    (terms : ∀ t ∈ operands, t.isNumber = false) :
    readAt (depth + 1) (compound connector operands intervals).spelling = .ok u ↔
      (∀ t ∈ operands, t.strayBrackets = 0) ∧
        ∃ us, List.Forall₂ (fun t u => readAt depth t.spelling = .ok u) operands us ∧
          u = compose connector us [] := by
  have hterms : ∀ us : List Term, (us.map Operand.term).filterMap Operand.term? = us := by
    simp [List.filterMap_map, Function.comp_def, Operand.term?]
  have hgaps : ∀ us : List Term, (us.map Operand.term).filterMap Operand.gap? = [] := by
    simp [List.filterMap_map, Function.comp_def, Operand.gap?]
  rw [readAt_spelling_compound named, ReadsOperands]
  constructor
  · rintro ⟨tokens, xs, htokens, hxs, _, rfl⟩
    obtain ⟨hstray, rfl⟩ := (splitOperands_spelling hne named).1 htokens
    rw [List.forall₂_map_left_iff, readOperands_spelling named terms] at hxs
    obtain ⟨us, hus, rfl⟩ := hxs
    exact ⟨hstray, us, hus, by rw [hterms, hgaps]⟩
  · rintro ⟨hstray, us, hus, rfl⟩
    refine ⟨_, us.map Operand.term, (splitOperands_spelling hne named).2 ⟨hstray, rfl⟩, ?_, ?_, ?_⟩
    · rw [List.forall₂_map_left_iff, readOperands_spelling named terms]
      exact ⟨us, hus, rfl⟩
    · rw [hterms]
      rintro rfl
      exact hne (List.forall₂_nil_right_iff.1 hus)
    · rw [hterms, hgaps]

theorem readAt_spelling_variable {kind : VariableKind} {name : String} {dependencies : List Term}
    (characters : ∀ c ∈ name.toList, isNameChar c = true)
    (h : ∀ d ∈ dependencies, d.Named ∧ ',' ∉ d.spelling) :
    readAt (depth + 1) (var kind name dependencies).spelling = .ok u ↔
      ∃ us, List.Forall₂ (fun d u => readAt depth d.spelling = .ok u) dependencies us ∧
        ofVariable (shownKind kind us) name us = .ok u := by
  have hpieces : ∀ piece ∈ dependencies.map spelling, piece ≠ [] ∧ ',' ∉ piece := by
    intro piece hpiece
    obtain ⟨d, hd, rfl⟩ := List.mem_map.1 hpiece
    obtain ⟨c, cs, hspelling, _⟩ := exists_spelling (h d hd).1
    exact ⟨by simp [hspelling], (h d hd).2⟩
  rw [spelling_var characters, readAt_variable, readVariable_append characters hpieces]
  simp only [List.forall₂_map_left_iff, markedKind_symbol, String.ofList_toList]

/-! ## Terms but for their intervals -/

/-- One term is the other but for its intervals, and the layout of the other fits it. -/
structure Recalls (u t : Term) : Prop where
  /-- The terms are equal but for their intervals. -/
  timeless_eq : u.timeless = t.timeless
  /-- The intervals are put in, and none is left over. -/
  takeLayout_eq : ∀ rest, u.takeLayout (t.layout ++ rest) = some (t, rest)

theorem Recalls.text_eq (h : u.Recalls t) : u.text = t.text := by
  have htext := congrArg text h.timeless_eq
  rwa [text_timeless, text_timeless] at htext

theorem headsSentence_skeleton (tag : VariableKind → VariableKind) (t : Term) :
    (t.skeleton tag).headsSentence = t.headsSentence := by
  cases t <;> rfl

theorem Recalls.headsSentence_eq (h : u.Recalls t) : u.headsSentence = t.headsSentence := by
  have hheads := congrArg headsSentence h.timeless_eq
  rwa [timeless, timeless, headsSentence_skeleton, headsSentence_skeleton] at hheads

theorem relate_eq_statement {subject predicate : Term} {copula : Copula}
    (h : copula.isSymmetric = true → ¬predicate.text < subject.text) (interval : UInt32) :
    relate subject copula predicate interval = statement subject copula predicate interval := by
  unfold relate
  rw [if_neg]
  intro hswap
  simp only [Bool.and_eq_true, decide_eq_true_eq] at hswap
  exact h hswap.1 hswap.2

theorem compose_eq_compound {connector : Connector} {operands : List Term}
    (single : connector.isSet = true → operands.length ≤ 1)
    (sorted : connector.isOrderInvariant = true → operands.Pairwise fun s t => precedes s t)
    (intervals : List UInt32) : compose connector operands intervals =
      compound connector operands (fitIntervals connector operands intervals) := by
  have hfew : ¬(connector.isSet && decide (1 < operands.length)) = true := by
    intro h
    simp only [Bool.and_eq_true, decide_eq_true_eq] at h
    have := single h.1
    omega
  unfold compose composeFlat
  rw [if_neg hfew]
  split
  · rw [stableSort_of_pairwise (sorted ‹_›)]
  · rfl

theorem recalls_relate {subject predicate s p : Term} {copula : Copula} {interval : UInt32}
    (h : (statement subject copula predicate interval).Formed) (hs : s.Recalls subject)
    (hp : p.Recalls predicate) (interval' : UInt32) :
    (relate s copula p interval').Recalls (statement subject copula predicate interval) := by
  cases h with
  | statement sorted _ _ =>
    have hsorted : copula.isSymmetric = true → ¬p.text < s.text := by
      rw [hs.text_eq, hp.text_eq]
      exact sorted
    rw [relate_eq_statement hsorted]
    refine ⟨?_, ?_⟩
    · have hsubject : s.skeleton id = subject.skeleton id := hs.timeless_eq
      have hpredicate : p.skeleton id = predicate.skeleton id := hp.timeless_eq
      rw [timeless, timeless, skeleton, skeleton, hsubject, hpredicate]
    · intro rest
      simp only [layout, List.cons_append, List.append_assoc, takeLayout, hs.takeLayout_eq,
        hp.takeLayout_eq, bind, Option.bind, pure, relate_eq_statement sorted]

theorem map_text_of_recalls {us ts : List Term} (h : List.Forall₂ Recalls us ts) :
    us.map text = ts.map text := by
  induction h with
  | nil => rfl
  | cons hu _ ih => rw [List.map_cons, List.map_cons, hu.text_eq, ih]

theorem skeletons_of_recalls {us ts : List Term} (h : List.Forall₂ Recalls us ts) :
    skeletons id us = skeletons id ts := by
  induction h with
  | nil => rfl
  | cons hu _ ih =>
    rw [skeletons, skeletons, ih]
    exact congrArg (· :: _) hu.timeless_eq

theorem takeLayouts_of_recalls {us ts : List Term} (h : List.Forall₂ Recalls us ts)
    (rest : List UInt32) : takeLayouts us (layouts ts ++ rest) = some (ts, rest) := by
  induction h with
  | nil => rfl
  | cons hu _ ih =>
    simp only [layouts, List.append_assoc, takeLayouts, hu.takeLayout_eq, ih, bind, Option.bind,
      pure]

theorem length_fitIntervals {connector : Connector} {ts us : List Term}
    (h : ts.length = us.length) (intervals intervals' : List UInt32) :
    (fitIntervals connector ts intervals).length =
      (fitIntervals connector us intervals').length := by
  cases connector <;> simp [fitIntervals, h]

/-- Whether terms are sorted depends on their texts only. -/
theorem pairwise_precedes_congr {ts us : List Term} (h : ts.map text = us.map text) :
    (ts.Pairwise fun s t => precedes s t) ↔ us.Pairwise fun s t => precedes s t := by
  simp only [precedes]
  rw [← List.pairwise_map (R := fun a b : String => decide (a ≤ b) = true), h, List.pairwise_map]

theorem recalls_compose {connector : Connector} {operands us : List Term}
    {intervals : List UInt32} (h : (compound connector operands intervals).Formed)
    (hus : List.Forall₂ Recalls us operands) (intervals' : List UInt32) :
    (compose connector us intervals').Recalls (compound connector operands intervals) := by
  cases h with
  | compound _ single sorted fitted _ =>
    have hlength : us.length = operands.length := hus.length_eq
    have htexts := map_text_of_recalls hus
    -- The operands that are read have the same texts, and only these decide on the order.
    have hsorted : connector.isOrderInvariant = true → us.Pairwise fun s t => precedes s t :=
      fun hinvariant => (pairwise_precedes_congr htexts).2 (sorted hinvariant)
    have hfew : connector.isSet = true → operands.length ≤ 1 :=
      fun hset => Nat.le_of_eq (single hset)
    have hsingle : connector.isSet = true → us.length ≤ 1 := by
      rwa [hlength]
    have hfit : (fitIntervals connector us intervals').length = intervals.length := by
      rw [← fitted, length_fitIntervals hlength]
    rw [compose_eq_compound hsingle hsorted]
    refine ⟨?_, ?_⟩
    · rw [timeless, timeless, skeleton, skeleton, skeletons_of_recalls hus]
    · intro rest
      have hsplit : splitAt? intervals.length (intervals ++ (layouts operands ++ rest)) =
          some (intervals, layouts operands ++ rest) := by
        simp [splitAt?]
      simp only [layout, List.append_assoc, takeLayout, hfit, hsplit, takeLayouts_of_recalls hus,
        bind, Option.bind, pure, compose_eq_compound hfew sorted, fitted]

/-! ## Legible terms are read back -/

/-- Plain variables are read as they are. -/
theorem readAt_spelling_plain (h : t.Named) (hplain : t.isPlainVariable = true) :
    readAt (depth + 1) t.spelling = .ok t := by
  obtain ⟨kind, name, rfl, hkind⟩ := isPlainVariable_iff.1 hplain
  cases h with
  | var nonempty characters _ =>
    refine (readAt_spelling_variable characters (by simp)).2 ⟨[], .nil, ?_⟩
    exact ofVariable_eq_ok.2 ⟨by rw [← hkind], nonempty, characters⟩

theorem comma_not_mem_of_isPlainVariable (h : t.Named) (hplain : t.isPlainVariable = true) :
    ',' ∉ t.spelling := by
  obtain ⟨kind, name, rfl, _⟩ := isPlainVariable_iff.1 hplain
  cases h with
  | var _ characters _ =>
    rw [spelling_var characters, List.map_nil, dependencyList, if_pos rfl, List.append_nil]
    intro hc
    rcases List.mem_cons.1 hc with hc | hc
    · cases kind <;> exact absurd hc (by decide)
    · exact absurd (characters _ hc) (by decide)

theorem readAt_spelling_var {kind : VariableKind} {name : String} {dependencies : List Term}
    (nonempty : name ≠ "") (characters : ∀ c ∈ name.toList, isNameChar c = true)
    (all : ∀ t ∈ dependencies, t.Named)
    (hplain : (var kind name dependencies).hasPlainVariables = true) :
    readAt (depth + 2) (var kind name dependencies).spelling =
      .ok (var kind name dependencies) := by
  rw [hasPlainVariables, Bool.and_eq_true, beq_iff_eq, List.all_eq_true] at hplain
  obtain ⟨hkind, hdependencies⟩ := hplain
  refine (readAt_spelling_variable characters fun d hd =>
    ⟨all d hd, comma_not_mem_of_isPlainVariable (all d hd) (hdependencies d hd)⟩).2
      ⟨dependencies, ?_, ofVariable_eq_ok.2 ⟨by rw [← hkind], nonempty, characters⟩⟩
  rw [List.forall₂_same]
  exact fun d hd => readAt_spelling_plain (all d hd) (hdependencies d hd)

/-- A compound is read back when its operands are. -/
theorem recalls_readAt_compound {connector : Connector} {operands : List Term}
    {intervals : List UInt32} (h : (compound connector operands intervals).Formed)
    (all : ∀ t ∈ operands, t.Named)
    (hplain : (compound connector operands intervals).hasPlainVariables = true)
    (hlegible : (compound connector operands intervals).isLegible = true)
    (hread : ∀ t ∈ operands, ∃ u, readAt depth t.spelling = .ok u ∧ u.Recalls t) :
    ∃ u, readAt (depth + 1) (compound connector operands intervals).spelling = .ok u ∧
      u.Recalls (compound connector operands intervals) := by
  have hshown := areLegible_iff.1 hlegible
  have hplains := allPlainVariables_iff.1 hplain
  have hstray : ∀ t ∈ operands, t.strayBrackets = 0 := fun t ht =>
    (strayBrackets_of_plain t (hplains t ht)).trans (hshown t ht).2.1
  obtain ⟨us, hus⟩ := exists_forall₂ hread
  exact ⟨_, (readAt_spelling_terms h.nonempty all fun t ht => (hshown t ht).1).2
    ⟨hstray, us, (hus.imp fun _ _ h => h.1).flip, rfl⟩,
    recalls_compose h (hus.imp fun _ _ h => h.2) []⟩

theorem recalls_readAt (h : t.Formed) (hnamed : t.Named) (hplain : t.hasPlainVariables = true)
    (hlegible : t.isLegible = true) (hdeep : t.bracketDepth < depth) :
    ∃ u, readAt depth t.spelling = .ok u ∧ u.Recalls t := by
  induction hnamed generalizing depth with
  | @atom name nonempty characters =>
    obtain ⟨depth, rfl⟩ := Nat.exists_eq_succ_of_ne_zero (Nat.ne_zero_of_lt hdeep)
    refine ⟨.atom name, ?_, rfl, fun rest => rfl⟩
    rw [spelling_atom characters]
    exact readAt_name nonempty characters
  | @var kind name dependencies nonempty characters all =>
    obtain ⟨depth, rfl⟩ := Nat.exists_eq_succ_of_ne_zero (Nat.ne_zero_of_lt hdeep)
    refine ⟨.var kind name dependencies, ?_, rfl, fun rest => rfl⟩
    cases hdependencies : dependencies with
    | nil =>
      subst hdependencies
      have hkind : (var kind name []).isPlainVariable = true := by
        simpa [isPlainVariable, hasPlainVariables] using hplain
      exact readAt_spelling_plain (.var nonempty characters all) hkind
    | cons t ts =>
      subst hdependencies
      rw [bracketDepth, if_neg (by simp)] at hdeep
      obtain ⟨depth, rfl⟩ := Nat.exists_eq_succ_of_ne_zero
        (Nat.ne_zero_of_lt (Nat.lt_of_succ_lt_succ hdeep))
      exact readAt_spelling_var nonempty characters all hplain
  | @compound connector operands intervals all ih =>
    obtain ⟨depth, rfl⟩ := Nat.exists_eq_succ_of_ne_zero (Nat.ne_zero_of_lt hdeep)
    have hdepth := Nat.lt_of_succ_lt_succ hdeep
    have hdepths := (bracketDepths_lt_iff (Nat.zero_lt_of_lt hdepth)).1 hdepth
    apply recalls_readAt_compound h all hplain hlegible
    intro t ht
    exact ih t ht (h.operands t ht) (allPlainVariables_iff.1 hplain t ht)
      (areLegible_iff.1 hlegible t ht).2.2 (hdepths t ht)
  | @statement subject copula predicate interval left right ihs ihp =>
    obtain ⟨depth, rfl⟩ := Nat.exists_eq_succ_of_ne_zero (Nat.ne_zero_of_lt hdeep)
    rw [hasPlainVariables, Bool.and_eq_true] at hplain
    rw [isLegible, Bool.and_eq_true] at hlegible
    rw [bracketDepth] at hdeep
    have hdepths : subject.bracketDepth < depth ∧ predicate.bracketDepth < depth := by
      omega
    cases h with
    | statement sorted formed formed' =>
      obtain ⟨s, hs, hrs⟩ := ihs formed hplain.1 hlegible.1 hdepths.1
      obtain ⟨p, hp, hrp⟩ := ihp formed' hplain.2 hlegible.2 hdepths.2
      exact ⟨_, (readAt_spelling_statement left right).2 ⟨s, p, hs, hp, rfl⟩,
        recalls_relate (.statement sorted formed formed') hrs hrp _⟩

/-! ## Nothing is added in reading -/

/-- How many characters of names there are in the text of a term. -/
def letters (t : Term) : Nat := t.text.toList.countP isNameChar

theorem letters_compound (connector : Connector) (operands : List Term) (intervals : List UInt32) :
    (compound connector operands intervals).letters = (operands.map letters).sum := by
  have hopening : (opening connector).countP isNameChar = 0 := by
    cases connector <;> rfl
  have hclosing : [closing connector].countP isNameChar = 0 := by
    cases connector <;> rfl
  have hcomma : [','].countP isNameChar = 0 := rfl
  rw [letters, toList_text_compound, List.countP_append, List.countP_append, hopening, hclosing,
    countP_intercalate hcomma, List.map_map, Nat.zero_add, Nat.add_zero]
  rfl

theorem letters_statement (subject : Term) (copula : Copula) (predicate : Term)
    (interval : UInt32) : (statement subject copula predicate interval).letters =
      subject.letters + predicate.letters := by
  have hsymbol : copula.symbol.toList.countP isNameChar = 0 := by
    cases copula <;> rfl
  have hblank : ∀ {c : Char}, isNameChar c = false → ∀ cs : List Char,
      (c :: cs).countP isNameChar = cs.countP isNameChar :=
    fun hc _ => List.countP_cons_of_neg (by simp [hc])
  rw [letters, toList_text_statement, hblank rfl, List.countP_append, hblank rfl,
    List.countP_append, hblank rfl, List.countP_append, hblank rfl, hsymbol]
  simp [letters]

theorem letters_composeFlat (connector : Connector) (operands : List Term)
    (intervals : List UInt32) :
    (composeFlat connector operands intervals).letters = (operands.map letters).sum := by
  unfold composeFlat
  rw [letters_compound]
  split
  · exact ((stableSort_perm precedes operands).map letters).sum_nat
  · rfl

theorem letters_compose (connector : Connector) (operands : List Term) (intervals : List UInt32) :
    (compose connector operands intervals).letters = (operands.map letters).sum := by
  unfold compose
  split
  · rw [letters_composeFlat, List.map_map]
    congr 1
    apply List.map_congr_left
    intro t _
    show (composeFlat connector [t] []).letters = _
    rw [letters_composeFlat, List.map_singleton, List.sum_singleton]
  · exact letters_composeFlat ..

theorem letters_relate (subject : Term) (copula : Copula) (predicate : Term) (interval : UInt32) :
    (relate subject copula predicate interval).letters = subject.letters + predicate.letters := by
  unfold relate
  split
  · rw [letters_statement, Nat.add_comm]
  · exact letters_statement ..

theorem letters_pos_of_isNumber (h : t.Formed) (hnumber : t.isNumber = true) : 0 < t.letters := by
  cases h with
  | @atom name nonempty characters =>
    have hall : name.toList.countP isNameChar = name.toList.length :=
      List.countP_eq_length.2 characters
    rw [letters, text, hall]
    exact List.length_pos_iff.2 fun hnil => nonempty (String.toList_eq_nil_iff.1 hnil)
  | _ => exact absurd hnumber (by simp [isNumber])

/-- What is known of a term once its text has been read: no name was added, and if none was left out
then the term is legible and its brackets are not too deep. -/
def Survives (depth : Nat) (t u : Term) : Prop :=
  u.letters ≤ t.letters ∧ (u.letters = t.letters → t.isLegible = true ∧ t.nesting < depth)

/-- A name that is taken for a number is left out. -/
theorem survive_operands {whole : String} {ts : List Term} {xs : List Operand}
    (hread : List.Forall₂
      (fun t x => readOperand (readAt depth) whole t.spelling = .ok x) ts xs)
    (hground : ∀ t ∈ ts, t.Ground)
    (h : ∀ t ∈ ts, ∀ u, readAt depth t.spelling = .ok u → t.Survives depth u) :
    ((xs.filterMap Operand.term?).map letters).sum ≤ (ts.map letters).sum ∧
      (((xs.filterMap Operand.term?).map letters).sum = (ts.map letters).sum →
        ∀ t ∈ ts, t.isNumber = false ∧ t.isLegible = true ∧ t.nesting < depth) := by
  induction hread with
  | nil => exact ⟨Nat.le_refl _, fun _ t ht => absurd ht (by simp)⟩
  | @cons t x ts xs hx _ ih =>
    have ht := hground t (by simp)
    obtain ⟨hle, heq⟩ := ih (fun v hv => hground v (by simp [hv])) fun v hv => h v (by simp [hv])
    obtain ⟨c, cs, hspelling, _, hdigits⟩ := exists_spelling ht.named
    rw [← hspelling] at hdigits
    rw [List.map_cons, List.sum_cons]
    obtain ⟨_, ⟨hall, n, _, rfl⟩ | ⟨hall, u, hu, rfl⟩⟩ := readOperand_eq_ok.1 hx
    · have hpos := letters_pos_of_isNumber ht.formed (hdigits.symm.trans hall)
      show ((xs.filterMap Operand.term?).map letters).sum ≤ _ ∧ _
      refine ⟨by omega, ?_⟩
      intro hsum
      have hsum : ((xs.filterMap Operand.term?).map letters).sum =
          t.letters + (ts.map letters).sum := hsum
      omega
    · obtain ⟨hle', heq'⟩ := h t (by simp) u hu
      show u.letters + ((xs.filterMap Operand.term?).map letters).sum ≤ _ ∧ _
      refine ⟨by omega, ?_⟩
      intro hsum
      have hsum : u.letters + ((xs.filterMap Operand.term?).map letters).sum =
          t.letters + (ts.map letters).sum := hsum
      refine List.forall_mem_cons.2 ⟨⟨hdigits.symm.trans hall, heq' (by omega)⟩, heq (by omega)⟩

theorem survives_of_readAt (h : t.Ground) (hread : readAt depth t.spelling = .ok u) :
    t.Survives depth u := by
  induction h using Ground.induct generalizing depth u with
  | @atom name _ nonempty characters =>
    obtain ⟨depth, rfl⟩ := exists_succ_of_readAt hread
    rw [spelling_atom characters, readAt_name nonempty characters] at hread
    obtain rfl := Except.ok.inj hread
    exact ⟨Nat.le_refl _, fun _ => ⟨rfl, Nat.succ_pos depth⟩⟩
  | @compound connector operands intervals h ih =>
    obtain ⟨depth, rfl⟩ := exists_succ_of_readAt hread
    obtain ⟨tokens, xs, htokens, hxs, _, rfl⟩ :=
      (readAt_spelling_compound fun t ht => (h.operand ht).named).1 hread
    obtain ⟨hstray, rfl⟩ := (splitOperands_spelling h.formed.nonempty
      fun t ht => (h.operand ht).named).1 htokens
    have hproperties : ∀ t ∈ operands, t.properties = 0 := by
      intro t ht
      rw [← strayBrackets_of_plain t (h.operand ht).hasPlainVariables]
      exact hstray t ht
    rw [List.forall₂_map_left_iff] at hxs
    obtain ⟨hle, heq⟩ := survive_operands hxs (fun t ht => h.operand ht) fun t ht u hu => ih t ht hu
    rw [Survives, letters_compose, letters_compound]
    refine ⟨hle, ?_⟩
    intro hsum
    have hshown := heq hsum
    obtain ⟨t, ht⟩ := List.exists_mem_of_ne_nil operands h.formed.nonempty
    have hpos : 0 < depth := Nat.zero_lt_of_lt (hshown t ht).2.2
    refine ⟨areLegible_iff.2 ?_, Nat.succ_lt_succ ((nestings_lt_iff hpos).2 ?_)⟩
    · intro t ht
      exact ⟨(hshown t ht).1, hproperties t ht, (hshown t ht).2.1⟩
    · exact fun t ht => (hshown t ht).2.2
  | @statement subject copula predicate interval h ihs ihp =>
    obtain ⟨depth, rfl⟩ := exists_succ_of_readAt hread
    obtain ⟨s, p, hs, hp, rfl⟩ :=
      (readAt_spelling_statement h.sides.1.named h.sides.2.named).1 hread
    obtain ⟨hles, heqs⟩ := ihs hs
    obtain ⟨hlep, heqp⟩ := ihp hp
    rw [Survives, letters_relate, letters_statement]
    refine ⟨by omega, ?_⟩
    intro hsum
    obtain ⟨hls, hns⟩ := heqs (by omega)
    obtain ⟨hlp, hnp⟩ := heqp (by omega)
    refine ⟨by rw [isLegible, hls, hlp]; rfl, ?_⟩
    rw [nesting]
    omega

/-! ## Whole texts -/

/-- Whether a term is read from its own text. -/
structure IsReadable (t : Term) : Prop where
  /-- The text shows what the parts of the term are. -/
  legible : t.isLegible = true
  /-- Brackets are not nested too deep. -/
  nesting_le : t.nesting ≤ maxDepth
  /-- The text is not too long. -/
  size_le : t.text.utf8ByteSize ≤ SyntaxError.maxSentenceBytes

instance (t : Term) : Decidable t.IsReadable :=
  decidable_of_iff (t.isLegible = true ∧ t.nesting ≤ maxDepth ∧
    t.text.utf8ByteSize ≤ SyntaxError.maxSentenceBytes)
    ⟨fun h => ⟨h.1, h.2.1, h.2.2⟩, fun h => ⟨h.legible, h.nesting_le, h.size_le⟩⟩

theorem ascii_intercalate {ts : List Term} (hts : ∀ t ∈ ts, ∀ c ∈ t.text.toList, c.toNat < 0x80) :
    ∀ c ∈ [','].intercalate (ts.map fun t => t.text.toList), c.toNat < 0x80 := by
  refine forall_mem_intercalate (p := fun cs : List Char => ∀ c ∈ cs, c.toNat < 0x80) (by simp)
    (by simp) (fun cs ds hcs hds c hc => ?_) fun x hx => ?_
  · rcases List.mem_append.1 hc with hc | hc
    · exact hcs c hc
    · exact hds c hc
  · obtain ⟨t, ht, rfl⟩ := List.mem_map.1 hx
    exact hts t ht

/-- Every character of a text is an ASCII one. -/
theorem ascii_text (h : t.Named) : ∀ c ∈ t.text.toList, c.toNat < 0x80 := by
  induction h with
  | atom _ characters =>
    intro c hc
    exact (toNat_of_isNameChar (characters c hc)).2
  | @var kind name dependencies _ characters _ ih =>
    intro c hc
    rw [toList_text_var] at hc
    rcases List.mem_cons.1 hc with rfl | hc
    · cases kind <;> decide
    · rcases List.mem_append.1 hc with hc | hc
      · exact (toNat_of_isNameChar (characters c hc)).2
      · unfold dependencyList at hc
        split at hc
        · exact absurd hc (by simp)
        · rcases List.mem_cons.1 hc with rfl | hc
          · decide
          · rcases List.mem_append.1 hc with hc | hc
            · exact ascii_intercalate ih c hc
            · obtain rfl := List.mem_singleton.1 hc
              decide
  | @compound connector operands intervals _ ih =>
    have hends : (∀ c ∈ opening connector, c.toNat < 0x80) ∧ (closing connector).toNat < 0x80 := by
      cases connector <;>
        simp [opening, closing, Connector.closing?, Connector.isSet, Connector.symbol]
    intro c hc
    rw [toList_text_compound, List.append_assoc] at hc
    rcases List.mem_append.1 hc with hc | hc
    · exact hends.1 c hc
    · rcases List.mem_append.1 hc with hc | hc
      · exact ascii_intercalate ih c hc
      · obtain rfl := List.mem_singleton.1 hc
        exact hends.2
  | @statement subject copula predicate interval _ _ ihs ihp =>
    have hsymbol : ∀ c ∈ copula.symbol.toList, c.toNat < 0x80 := by
      cases copula <;> simp [Copula.symbol]
    intro c hc
    simp only [toList_text_statement, List.mem_cons, List.mem_append, List.not_mem_nil,
      or_false] at hc
    rcases hc with rfl | hc | rfl | hc | rfl | hc | rfl
    · decide
    · exact ihs c hc
    · decide
    · exact hsymbol c hc
    · decide
    · exact ihp c hc
    · decide

theorem parse_text_eq (h : t.Named) :
    parse t.text = if SyntaxError.maxSentenceBytes < t.text.utf8ByteSize then
      .error (.tooLong t.text.utf8ByteSize) else readAt (maxDepth + 1) t.spelling := by
  have hfind : (t.text.toList.find? fun c => decide (0x80 ≤ c.toNat)) = none := by
    refine List.find?_eq_none.2 fun c hc => ?_
    have := ascii_text h c hc
    simp only [decide_eq_true_eq]
    omega
  simp only [parse, parseChars, hfind, String.ofList_toList]
  rfl

theorem recalls_parse (h : t.Ground) (hreadable : t.IsReadable) :
    ∃ u, parse t.text = .ok u ∧ u.Recalls t := by
  rw [parse_text_eq h.named, if_neg (Nat.not_lt_of_le hreadable.size_le)]
  refine recalls_readAt h.formed h.named h.hasPlainVariables hreadable.legible ?_
  rw [h.bracketDepth_eq]
  exact Nat.lt_succ_of_le hreadable.nesting_le

/-- Reading the text of a well-formed term without variables gives the term back exactly if it is
readable. -/
theorem parse_text_iff (h : t.Ground) : (∃ u, parse t.text = .ok u ∧ (u == t) = true) ↔
    t.IsReadable := by
  constructor
  · rintro ⟨u, hu, hequal⟩
    have hletters : u.letters = t.letters := by
      rw [letters, beq_iff_text_eq.1 hequal]
      rfl
    rw [parse_text_eq h.named] at hu
    split at hu
    · exact absurd hu (by simp)
    · rename_i hsize
      obtain ⟨hlegible, hnesting⟩ := (survives_of_readAt h hu).2 hletters
      exact ⟨hlegible, Nat.le_of_lt_succ hnesting, Nat.le_of_not_lt hsize⟩
  · intro hreadable
    obtain ⟨u, hu, hrecalls⟩ := recalls_parse h hreadable
    exact ⟨u, hu, beq_iff_text_eq.2 hrecalls.text_eq⟩

-- The negation of a statement about a property is not read: its `]` is taken for the end of a set.
example : ¬(compound .negation [statement (atom "c") .property (atom "d") 0] []).IsReadable := by
  decide

end Term

end NonAxiomatic
