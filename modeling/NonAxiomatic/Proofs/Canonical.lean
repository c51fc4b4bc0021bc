import NonAxiomatic.Proofs.Rebuilding
import NonAxiomatic.Proofs.Written

/-!
# Canonical texts

Whether the text of a term that was read can be read again. Two things may stand against it. The
brackets in a compound have to match in number, and the `]` at the end of a property copula counts
as one of them (`Term.isMatched`): `(*,(a --] #x()[),c)` is read, as the bracket behind the empty
list of dependencies makes up for it, but its text `(*,(a --] #x),c)` is not. And brackets must not
be nested too deep, but those of a set with several elements are nested deeper in the text of the
term, an intersection of singletons, than they were before (`Term.bracketDepth`).

* `Term.canonical_of_readAt`: if the text of a term is read, it is read as this term.
* `Term.exists_readAt_spelling`: if nothing stands against it, the text of a term is read.
* `Term.parse_text_of_parse`: nothing else stands against it, for whole texts.

**Theorem (`Term.parse_canonical_iff`).** The text of a term that was read, if it is not too long
and brackets match in all compounds, is read as the same term exactly if they are not nested too
deep.
-/

namespace NonAxiomatic

namespace Term

mutual

/-- Whether brackets match in number in the text of every compound: no property copula is to be
found in the operands of any. -/
def isMatched : Term → Bool
  | atom _ => true
  | var _ _ dependencies => areMatched dependencies
  | compound _ operands _ => allStrayBrackets operands == 0
  | statement subject _ predicate _ => subject.isMatched && predicate.isMatched

/-- Whether this is so in several terms. -/
def areMatched : List Term → Bool
  | [] => true
  | t :: ts => t.isMatched && areMatched ts

end

variable {t u : Term} {ts us : List Term} {connector : Connector} {depth : Nat}

theorem areMatched_iff : areMatched ts = true ↔ ∀ t ∈ ts, t.isMatched = true := by
  induction ts with
  | nil => simp [areMatched]
  | cons t ts ih => rw [areMatched, Bool.and_eq_true, ih, List.forall_mem_cons]

mutual

theorem isMatched_of_strayBrackets : (t : Term) → t.strayBrackets = 0 → t.isMatched = true
  | atom _, _ => rfl
  | var _ _ dependencies, h => areMatched_of_strayBrackets dependencies h
  | compound _ operands _, h => beq_iff_eq.2 h
  | statement subject copula predicate _, h => by
    rw [strayBrackets] at h
    rw [isMatched, isMatched_of_strayBrackets subject (by omega),
      isMatched_of_strayBrackets predicate (by omega)]
    rfl

theorem areMatched_of_strayBrackets :
    (ts : List Term) → allStrayBrackets ts = 0 → areMatched ts = true
  | [], _ => rfl
  | t :: ts, h => by
    rw [allStrayBrackets] at h
    rw [areMatched, isMatched_of_strayBrackets t (by omega),
      areMatched_of_strayBrackets ts (by omega)]
    rfl

end

/-- A compound that is composed of the operands of another has the same text. -/
theorem text_compose_of_formed {operands : List Term} {intervals : List UInt32}
    (h : (compound connector operands intervals).Formed) (hus : us.map text = operands.map text)
    (intervals' : List UInt32) :
    (compose connector us intervals').text = (compound connector operands intervals).text := by
  cases h with
  | compound _ single sorted _ _ =>
    have hsingle : connector.isSet = true → operands.length ≤ 1 := fun hset =>
      Nat.le_of_eq (single hset)
    rw [text_compose_congr (sameTexts_of_map_eq hus), compose_eq_compound hsingle sorted, text,
      text]

/-! ## What is read is the same term -/

/-- What is known of a term once its text has been read. -/
structure Canonical (depth : Nat) (t u : Term) : Prop where
  text_eq : u.text = t.text
  matched : t.isMatched = true
  depth_lt : t.bracketDepth < depth

theorem canonical_forall₂ (h : List.Forall₂ (fun t u => readAt depth t.spelling = .ok u) ts us)
    (hts : ∀ t ∈ ts, ∀ u, readAt depth t.spelling = .ok u → Canonical depth t u) :
    us.map text = ts.map text ∧ ∀ t ∈ ts, t.isMatched = true ∧ t.bracketDepth < depth := by
  induction h with
  | nil => exact ⟨rfl, by simp⟩
  | @cons t u ts us hu _ ih =>
    have ht := hts t (by simp) u hu
    obtain ⟨htexts, hrest⟩ := ih fun v hv => hts v (by simp [hv])
    refine ⟨by rw [List.map_cons, List.map_cons, ht.text_eq, htexts], ?_⟩
    exact List.forall_mem_cons.2 ⟨⟨ht.matched, ht.depth_lt⟩, hrest⟩

theorem bracketDepths_lt (hne : ts ≠ []) (h : ∀ t ∈ ts, t.bracketDepth < depth) :
    bracketDepths ts < depth := by
  obtain ⟨t, ht⟩ := List.exists_mem_of_ne_nil ts hne
  exact (bracketDepths_lt_iff (Nat.zero_lt_of_lt (h t ht))).2 h

theorem shownKind_congr (kind : VariableKind) (h : us.map text = ts.map text) :
    shownKind kind us = shownKind kind ts := by
  have hempty : us.isEmpty = ts.isEmpty := by
    rw [← List.isEmpty_map (f := text), h, List.isEmpty_map]
  rw [shownKind, shownKind, hempty]

theorem canonical_of_readAt (hformed : t.Formed) (hwritten : t.Written)
    (h : readAt depth t.spelling = .ok u) : Canonical depth t u := by
  -- Along the text that is read; the depth goes down by one in each case.
  induction hwritten generalizing depth u with
  | @atom name nonempty characters =>
    obtain ⟨depth, rfl⟩ := exists_succ_of_readAt h
    rw [spelling_atom characters, readAt_name nonempty characters] at h
    obtain rfl := Except.ok.inj h
    exact ⟨rfl, rfl, Nat.succ_pos depth⟩
  | @var kind name dependencies nonempty characters shown formed undivided all ih =>
    obtain ⟨depth, rfl⟩ := exists_succ_of_readAt h
    obtain ⟨us, hus, hu⟩ := (readAt_spelling_variable characters fun d hd =>
      ⟨(all d hd).named, undivided d hd⟩).1 h
    obtain ⟨htexts, hshown⟩ := canonical_forall₂ hus fun d hd v hv => ih d hd (formed d hd) hv
    -- A variable is shown as what it is read as, since the kind depends on the texts of its
    -- dependencies.
    rw [shownKind_congr kind htexts, ← shown] at hu
    obtain ⟨_, hsame, htext⟩ := text_ofVariable_congr htexts hu
    obtain ⟨rfl, _⟩ := ofVariable_eq_ok.1 hsame
    refine ⟨htext.symm, areMatched_iff.2 fun d hd => (hshown d hd).1, ?_⟩
    rw [bracketDepth]
    split
    · exact Nat.succ_pos depth
    · rename_i hne
      exact Nat.succ_lt_succ (bracketDepths_lt (by simpa using hne) fun d hd => (hshown d hd).2)
  | @compound connector operands intervals terms all ih =>
    obtain ⟨depth, rfl⟩ := exists_succ_of_readAt h
    obtain ⟨hstray, us, hus, rfl⟩ :=
      (readAt_spelling_terms hformed.nonempty (fun t ht => (all t ht).named) terms).1 h
    obtain ⟨htexts, hshown⟩ :=
      canonical_forall₂ hus fun t ht v hv => ih t ht (hformed.operands t ht) hv
    exact ⟨text_compose_of_formed hformed htexts _,
      beq_iff_eq.2 (allStrayBrackets_eq_zero_iff.2 hstray),
      Nat.succ_lt_succ (bracketDepths_lt hformed.nonempty fun t ht => (hshown t ht).2)⟩
  | @statement subject copula predicate interval left right ihs ihp =>
    obtain ⟨depth, rfl⟩ := exists_succ_of_readAt h
    obtain ⟨s, p, hs, hp, rfl⟩ := (readAt_spelling_statement left.named right.named).1 h
    cases hformed with
    | statement sorted formed formed' =>
      have hs := ihs formed hs
      have hp := ihp formed' hp
      refine ⟨?_, ?_, ?_⟩
      · rw [text_relate_congr hs.text_eq hp.text_eq, relate_eq_statement sorted, text, text]
      · rw [isMatched, hs.matched, hp.matched]
        rfl
      · have := hs.depth_lt
        have := hp.depth_lt
        rw [bracketDepth]
        omega

/-! ## What is not nested too deep is read -/

theorem exists_readAt_spelling (hformed : t.Formed) (hwritten : t.Written)
    (hmatched : t.isMatched = true) (hdepth : t.bracketDepth < depth) :
    ∃ u, readAt depth t.spelling = .ok u := by
  induction hwritten generalizing depth with
  | @atom name nonempty characters =>
    obtain ⟨depth, rfl⟩ := Nat.exists_eq_succ_of_ne_zero (Nat.ne_zero_of_lt hdepth)
    rw [spelling_atom characters]
    exact ⟨_, readAt_name nonempty characters⟩
  | @var kind name dependencies nonempty characters shown formed undivided all ih =>
    obtain ⟨depth, rfl⟩ := Nat.exists_eq_succ_of_ne_zero (Nat.ne_zero_of_lt hdepth)
    have hdepths : ∀ d ∈ dependencies, d.bracketDepth < depth := by
      intro d hd
      rw [bracketDepth, if_neg (by simpa using List.ne_nil_of_mem hd)] at hdepth
      have hlt := Nat.lt_of_succ_lt_succ hdepth
      exact (bracketDepths_lt_iff (Nat.zero_lt_of_lt hlt)).1 hlt d hd
    obtain ⟨us, hus⟩ := exists_forall₂ fun d hd =>
      ih d hd (formed d hd) (areMatched_iff.1 hmatched d hd) (hdepths d hd)
    refine ⟨var (shownKind kind us) name us, (readAt_spelling_variable characters fun d hd =>
      ⟨(all d hd).named, undivided d hd⟩).2 ⟨us, hus.flip, ?_⟩⟩
    exact ofVariable_eq_ok.2 ⟨rfl, nonempty, characters⟩
  | @compound connector operands intervals terms all ih =>
    obtain ⟨depth, rfl⟩ := Nat.exists_eq_succ_of_ne_zero (Nat.ne_zero_of_lt hdepth)
    have hlt := Nat.lt_of_succ_lt_succ hdepth
    have hdepths := (bracketDepths_lt_iff (Nat.zero_lt_of_lt hlt)).1 hlt
    have hstray := allStrayBrackets_eq_zero_iff.1 (beq_iff_eq.1 hmatched)
    obtain ⟨us, hus⟩ := exists_forall₂ fun t ht => ih t ht (hformed.operands t ht)
      (isMatched_of_strayBrackets t (hstray t ht)) (hdepths t ht)
    exact ⟨_, (readAt_spelling_terms hformed.nonempty (fun t ht => (all t ht).named) terms).2
      ⟨hstray, us, hus.flip, rfl⟩⟩
  | @statement subject copula predicate interval left right ihs ihp =>
    obtain ⟨depth, rfl⟩ := Nat.exists_eq_succ_of_ne_zero (Nat.ne_zero_of_lt hdepth)
    rw [isMatched, Bool.and_eq_true] at hmatched
    rw [bracketDepth] at hdepth
    cases hformed with
    | statement _ formed formed' =>
      have hdepths : subject.bracketDepth < depth ∧ predicate.bracketDepth < depth := by
        omega
      obtain ⟨s, hs⟩ := ihs formed hmatched.1 hdepths.1
      obtain ⟨p, hp⟩ := ihp formed' hmatched.2 hdepths.2
      exact ⟨_, (readAt_spelling_statement left.named right.named).2 ⟨s, p, hs, hp, rfl⟩⟩

/-! ## Whole texts -/

section Texts

variable {text : String}

/-- The text of a term that was read, if it is not too long, is read as the same term exactly if
brackets match in all its compounds and are not nested too deep. It is never read as another one. -/
theorem parse_text_of_parse (h : parse text = .ok t)
    (hsize : t.text.utf8ByteSize ≤ SyntaxError.maxSentenceBytes) :
    ((∃ u, parse t.text = .ok u ∧ (u == t) = true) ↔
      t.isMatched = true ∧ t.bracketDepth ≤ maxDepth) ∧
    ∀ u, parse t.text = .ok u → (u == t) = true := by
  obtain ⟨hformed, hwritten⟩ := written_parse h
  rw [parse_text_eq hwritten.named, if_neg (Nat.not_lt_of_le hsize)]
  have same : ∀ u, readAt (maxDepth + 1) t.spelling = .ok u → (u == t) = true := fun u hu =>
    beq_iff_text_eq.2 (canonical_of_readAt hformed hwritten hu).text_eq
  refine ⟨⟨?_, ?_⟩, same⟩
  · rintro ⟨u, hu, _⟩
    have hcanonical := canonical_of_readAt hformed hwritten hu
    exact ⟨hcanonical.matched, Nat.le_of_lt_succ hcanonical.depth_lt⟩
  · rintro ⟨hmatched, hdepth⟩
    obtain ⟨u, hu⟩ :=
      exists_readAt_spelling hformed hwritten hmatched (Nat.lt_succ_of_le hdepth)
    exact ⟨u, hu, same u hu⟩

/-- **Main theorem.** Let brackets match in all compounds of a term that was read, and let its text
be no longer than a text may be. Then its text is read as the same term exactly if brackets are
nested in it no deeper than they may be. -/
theorem parse_canonical_iff (h : parse text = .ok t)
    (hsize : t.text.utf8ByteSize ≤ SyntaxError.maxSentenceBytes) (hmatched : t.isMatched = true) :
    (∃ u, parse t.text = .ok u ∧ (u == t) = true) ↔ t.bracketDepth ≤ maxDepth := by
  rw [(parse_text_of_parse h hsize).1, and_iff_right hmatched]

/-- A variable that depends on another one, and a set with two elements, are read again. -/
theorem parse_canonical_iff_set : ∃ t, parse "(*,#y(#x),\x7bb,a\x7d)" = .ok t ∧
    t.text = "(*,#y(#x),(|,\x7ba\x7d,\x7bb\x7d))" ∧
    ∃ u, parse t.text = .ok u ∧ (u == t) = true := by
  have hread : parse "(*,#y(#x),\x7bb,a\x7d)" = .ok (compound .product
      [var .dependent "y" [var .independent "x" []], compound .intensionalIntersection
        [compound .extensionalSet [atom "a"] [], compound .extensionalSet [atom "b"] []] []] []) :=
    rfl
  have hdepth := (parse_canonical_iff hread (by decide +kernel) (by decide +kernel)).2
  exact ⟨_, hread, by decide +kernel, hdepth (by decide +kernel)⟩

/-- A set with two elements that is nested as deep as it can be: the text of the term is nested one
level deeper, and is refused. -/
theorem exists_parse_text_refused : ∃ t,
    parse (String.join (List.replicate 64 "\x7b") ++ "a,b" ++
      String.join (List.replicate 64 "\x7d")) = .ok t ∧
    t.text.utf8ByteSize ≤ SyntaxError.maxSentenceBytes ∧
    ¬∃ u, parse t.text = .ok u ∧ (u == t) = true := by
  have hany : ((parse (String.join (List.replicate 64 "\x7b") ++ "a,b" ++
      String.join (List.replicate 64 "\x7d"))).toOption.any fun t =>
        decide (t.text.utf8ByteSize ≤ SyntaxError.maxSentenceBytes) &&
          decide (maxDepth < t.bracketDepth)) = true := by
    decide +kernel
  cases ht : parse (String.join (List.replicate 64 "\x7b") ++ "a,b" ++
      String.join (List.replicate 64 "\x7d")) with
  | error e => simp only [ht, Except.toOption, Option.any_none, Bool.false_eq_true] at hany
  | ok t =>
    simp only [ht, Except.toOption, Option.any_some, Bool.and_eq_true, decide_eq_true_eq] at hany
    refine ⟨t, rfl, hany.1, fun hread => ?_⟩
    have hdepth := ((parse_text_of_parse ht hany.1).1.1 hread).2
    exact absurd hdepth (Nat.not_le_of_lt hany.2)

end Texts

end Term

end NonAxiomatic
