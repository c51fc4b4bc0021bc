import NonAxiomatic.Proofs.Legible

/-!
# Texts as identities

The text of a term shows the whole term, but for what it leaves out: the intervals, and which of
the two kinds of variables a `#` stands for. What is left of a term when both are taken away is its
skeleton (`Term.untagged`).

The text of a term is found again in front of whatever may follow it (`Term.text_append_inj`). Its
first characters tell names, variables, compounds and statements apart (`Term.outlineOf_text`), and
a part ends where a character stands that no term begins with.

**Theorem (`Term.text_eq_iff`).** Two terms have the same text exactly if they have the same
skeleton.
-/

namespace NonAxiomatic

namespace Term

/-! ## Skeletons -/

mutual

/-- The term without its intervals and with other kinds of variables. -/
def skeleton (tag : VariableKind → VariableKind) : Term → Term
  | atom name => atom name
  | var kind name dependencies => var (tag kind) name (skeletons tag dependencies)
  | compound connector operands _ => compound connector (skeletons tag operands) []
  | statement subject copula predicate _ =>
    statement (subject.skeleton tag) copula (predicate.skeleton tag) 0

/-- The skeletons of several terms. -/
def skeletons (tag : VariableKind → VariableKind) : List Term → List Term
  | [] => []
  | t :: ts => t.skeleton tag :: skeletons tag ts

end

/-- The term without its intervals. -/
def timeless (t : Term) : Term := t.skeleton id

/-- One kind for the two kinds of variables that are written alike. -/
def untag : VariableKind → VariableKind
  | .query => .query
  | .independent | .dependent => .independent

/-- The term without its intervals, and without the difference between independent and dependent
variables. -/
def untagged (t : Term) : Term := t.skeleton untag

theorem skeletons_eq_map (tag : VariableKind → VariableKind) (ts : List Term) :
    skeletons tag ts = ts.map fun t => t.skeleton tag := by
  induction ts with
  | nil => rfl
  | cons t ts ih => rw [skeletons, ih, List.map_cons]

theorem symbol_untag (kind : VariableKind) : (untag kind).symbol = kind.symbol := by
  cases kind <;> rfl

theorem untag_eq_of_symbol_eq {kind kind' : VariableKind} (h : kind.symbol = kind'.symbol) :
    untag kind = untag kind' := by
  cases kind <;> cases kind' <;> first | rfl | exact absurd h (by decide)

mutual

/-- The text of a term is that of its skeleton. -/
theorem text_skeleton {tag : VariableKind → VariableKind}
    (htag : ∀ kind, (tag kind).symbol = kind.symbol) : (t : Term) → (t.skeleton tag).text = t.text
  | atom _ => rfl
  | var kind name [] => by
    rw [skeleton, skeletons, text, text, htag]
  | var kind name (t :: ts) => by
    have hlist := texts_skeletons htag (t :: ts)
    rw [skeleton, text, text, htag, hlist, skeletons]
    rfl
  | compound connector operands _ => by
    rw [skeleton, text, text, texts_skeletons htag operands]
  | statement subject copula predicate _ => by
    rw [skeleton, text, text, text_skeleton htag subject, text_skeleton htag predicate]

theorem texts_skeletons {tag : VariableKind → VariableKind}
    (htag : ∀ kind, (tag kind).symbol = kind.symbol) :
    (ts : List Term) → texts (skeletons tag ts) = texts ts
  | [] => rfl
  | t :: ts => by
    rw [skeletons, texts, texts, text_skeleton htag t, texts_skeletons htag ts]

end

theorem text_timeless (t : Term) : t.timeless.text = t.text := text_skeleton (fun _ => rfl) t

theorem text_untagged (t : Term) : t.untagged.text = t.text := text_skeleton symbol_untag t

/-! ## Beginnings and ends -/

/-- Nothing, or a character that may stand behind a term. -/
def Stops (rest : List Char) : Prop :=
  ∀ c ∈ rest.head?, startsTerm c = false

theorem stops_cons {c : Char} (h : startsTerm c = false) (rest : List Char) :
    Stops (c :: rest) := by
  intro d hd
  obtain rfl := Option.some.inj hd
  exact h

theorem isNameChar_eq_false {c : Char} (h : startsTerm c = false) : isNameChar c = false := by
  simp only [startsTerm, Bool.or_eq_false_iff] at h
  exact h.1.1.1

theorem startsTerm_closing (connector : Connector) : startsTerm (closing connector) = false := by
  cases connector <;> rfl

theorem exists_text {t : Term} (h : t.Named) :
    ∃ c cs, t.text.toList = c :: cs ∧ startsTerm c = true := by
  cases h with
  | @atom name nonempty characters =>
    cases hname : name.toList with
    | nil => exact absurd (String.toList_eq_nil_iff.1 hname) nonempty
    | cons c cs =>
      have hc := characters c (by simp [hname])
      exact ⟨c, cs, hname, by simp [startsTerm, hc]⟩
  | @var kind =>
    rw [toList_text_var]
    cases kind <;> exact ⟨_, _, rfl, rfl⟩
  | @compound connector =>
    rw [toList_text_compound]
    cases connector <;> exact ⟨_, _, rfl, rfl⟩
  | statement =>
    rw [toList_text_statement]
    exact ⟨_, _, rfl, rfl⟩

/-- A name ends where a character stands that is not one of names. -/
theorem name_append_inj {xs ys rest rest' : List Char} (hxs : ∀ c ∈ xs, isNameChar c = true)
    (hys : ∀ c ∈ ys, isNameChar c = true) (hrest : ∀ c ∈ rest.head?, isNameChar c = false)
    (hrest' : ∀ c ∈ rest'.head?, isNameChar c = false) (h : xs ++ rest = ys ++ rest') :
    xs = ys ∧ rest = rest' := by
  have hnil : ∀ {zs : List Char}, (∀ c ∈ zs.head?, isNameChar c = false) →
      zs.takeWhile isNameChar = [] := by
    intro zs hzs
    cases zs with
    | nil => rfl
    | cons z zs => rw [List.takeWhile_cons_of_neg (by simp [hzs z rfl])]
  have hcut := congrArg (List.takeWhile isNameChar) h
  rw [List.takeWhile_append_of_pos hxs, List.takeWhile_append_of_pos hys, hnil hrest, hnil hrest',
    List.append_nil, List.append_nil] at hcut
  subst hcut
  exact ⟨rfl, List.append_cancel_left h⟩

/-! ## Outlines -/

/-- The four kinds of terms. -/
inductive Outline where
  | name
  | variable
  | compound
  | statement
deriving DecidableEq

/-- The kind of a term. -/
def outline : Term → Outline
  | atom _ => .name
  | var .. => .variable
  | compound .. => .compound
  | statement .. => .statement

/-- The kind of the term that a text begins with: what stands behind a round bracket is a term in
a statement, and a connector in a compound. -/
def outlineOf : List Char → Outline
  | '(' :: c :: _ => if startsTerm c then .statement else .compound
  | c :: _ => if isNameChar c then .name else if marksVariable c then .variable else .compound
  | [] => .name

theorem outlineOf_text {t : Term} (h : t.Named) (rest : List Char) :
    outlineOf (t.text.toList ++ rest) = t.outline := by
  cases h with
  | @atom name nonempty characters =>
    cases hname : name.toList with
    | nil => exact absurd (String.toList_eq_nil_iff.1 hname) nonempty
    | cons c cs =>
      have hc := characters c (by simp [hname])
      have hopen : c ≠ '(' := by
        rintro rfl
        exact absurd hc (by decide)
      show outlineOf (name.toList ++ rest) = .name
      rw [hname, List.cons_append, outlineOf, if_pos hc]
      exact fun d ds heq _ => hopen heq
  | @var kind =>
    rw [toList_text_var]
    cases kind <;> rfl
  | @compound connector =>
    rw [toList_text_compound]
    cases connector <;> rfl
  | @statement subject copula predicate interval left =>
    obtain ⟨c, cs, hsubject, hc⟩ := exists_text left
    rw [toList_text_statement, hsubject]
    -- The character behind the bracket begins a subject or a connector, and no connector begins a
    -- term.
    show (if startsTerm c then Outline.statement else Outline.compound) = .statement
    rw [if_pos hc]

/-! ## Unique reading -/

/-- Whatever stands behind its text, a text that begins with the text of this term begins with no
other one. -/
def IsShown (s : Term) : Prop :=
  ∀ {t : Term} {rest rest' : List Char}, t.Named → Stops rest → Stops rest' →
    s.text.toList ++ rest = t.text.toList ++ rest' → s.untagged = t.untagged ∧ rest = rest'

/-- The texts of terms with a comma in front of each. -/
def listed (ts : List Term) : List Char := ts.flatMap fun t => ',' :: t.text.toList

theorem intercalate_eq_listed (t : Term) (ts : List Term) :
    [','].intercalate ((t :: ts).map fun t => t.text.toList) = t.text.toList ++ listed ts := by
  induction ts generalizing t with
  | nil => simp [listed]
  | cons u ts ih =>
    rw [List.map_cons, List.intercalate_cons_of_ne_nil (by simp), ih u]
    simp [listed]

theorem stops_listed {close : Char} (hclose : startsTerm close = false) (ts : List Term)
    (rest : List Char) : Stops (listed ts ++ close :: rest) := by
  cases ts with
  | nil => exact stops_cons hclose rest
  | cons t ts => exact stops_cons rfl _

theorem listed_append_inj {close : Char} (hclose : startsTerm close = false) (hcomma : close ≠ ',')
    {ss ts : List Term} {rest rest' : List Char} (hshown : ∀ s ∈ ss, s.IsShown)
    (hnamed : ∀ t ∈ ts, t.Named)
    (h : listed ss ++ close :: rest = listed ts ++ close :: rest') :
    skeletons untag ss = skeletons untag ts ∧ rest = rest' := by
  induction ss generalizing ts with
  -- Along both lists; a list that ends is followed by the closing character, the other by a comma.
  | nil =>
    cases ts with
    | nil => exact ⟨rfl, List.cons.inj h |>.2⟩
    | cons t ts => exact absurd (List.cons.inj h).1 hcomma
  | cons s ss ih =>
    cases ts with
    | nil => exact absurd (List.cons.inj h).1.symm hcomma
    | cons t ts =>
      have htail := (List.cons.inj h).2
      change s.text.toList ++ listed ss ++ close :: rest =
        t.text.toList ++ listed ts ++ close :: rest' at htail
      rw [List.append_assoc, List.append_assoc] at htail
      obtain ⟨hst, hmore⟩ := hshown s (by simp) (hnamed t (by simp)) (stops_listed hclose ss rest)
        (stops_listed hclose ts rest') htail
      obtain ⟨hskeletons, hrest⟩ := ih (fun u hu => hshown u (by simp [hu]))
        (fun u hu => hnamed u (by simp [hu])) hmore
      rw [skeletons, skeletons, hskeletons]
      exact ⟨congrArg (· :: _) hst, hrest⟩

theorem operands_append_inj {close : Char} (hclose : startsTerm close = false)
    (hcomma : close ≠ ',') {ss ts : List Term} {rest rest' : List Char}
    (hshown : ∀ s ∈ ss, s.IsShown) (hs : ∀ s ∈ ss, s.Named) (ht : ∀ t ∈ ts, t.Named)
    (h : [','].intercalate (ss.map fun s => s.text.toList) ++ close :: rest =
      [','].intercalate (ts.map fun t => t.text.toList) ++ close :: rest') :
    skeletons untag ss = skeletons untag ts ∧ rest = rest' := by
  have hfirst : ∀ {u : Term} {cs ds : List Char}, u.Named →
      close :: cs ≠ u.text.toList ++ ds := by
    intro u cs ds hu heq
    obtain ⟨c, cs', htext, hc⟩ := exists_text hu
    rw [htext] at heq
    obtain ⟨rfl, _⟩ := List.cons.inj heq
    rw [hclose] at hc
    exact absurd hc (by decide)
  cases ss with
  | nil =>
    cases ts with
    | nil => exact ⟨rfl, List.cons.inj h |>.2⟩
    | cons t ts =>
      rw [intercalate_eq_listed, List.append_assoc] at h
      exact absurd h (hfirst (ht t (by simp)))
  | cons s ss =>
    cases ts with
    | nil =>
      rw [intercalate_eq_listed, List.append_assoc] at h
      exact absurd h.symm (hfirst (hs s (by simp)))
    | cons t ts =>
      rw [intercalate_eq_listed, intercalate_eq_listed] at h
      refine listed_append_inj hclose hcomma hshown ht ?_
      show ',' :: (s.text.toList ++ listed ss) ++ close :: rest =
        ',' :: (t.text.toList ++ listed ts) ++ close :: rest'
      rw [List.cons_append, List.cons_append, h]

theorem dependencies_append_inj {ss ts : List Term} {rest rest' : List Char}
    (hshown : ∀ s ∈ ss, s.IsShown) (hs : ∀ s ∈ ss, s.Named) (ht : ∀ t ∈ ts, t.Named)
    (hrest : Stops rest) (hrest' : Stops rest')
    (h : dependencyList (ss.map fun s => s.text.toList) ++ rest =
      dependencyList (ts.map fun t => t.text.toList) ++ rest') :
    skeletons untag ss = skeletons untag ts ∧ rest = rest' := by
  have hopen : ∀ {cs ds : List Char}, Stops cs → cs ≠ '(' :: ds := by
    rintro cs ds hcs rfl
    exact absurd (hcs '(' rfl) (by decide)
  by_cases hss : ss = []
  · subst hss
    by_cases hts : ts = []
    · subst hts
      exact ⟨rfl, h⟩
    · rw [dependencyList, dependencyList, if_pos List.map_nil, if_neg (by simpa using hts)] at h
      exact absurd h (hopen hrest)
  · by_cases hts : ts = []
    · subst hts
      rw [dependencyList, dependencyList, if_pos List.map_nil, if_neg (by simpa using hss)] at h
      exact absurd h.symm (hopen hrest')
    · rw [dependencyList, dependencyList, if_neg (by simpa using hss), if_neg (by simpa using hts),
        List.cons_append, List.cons_append, List.append_assoc, List.append_assoc] at h
      exact operands_append_inj rfl (by decide) hshown hs ht (List.cons.inj h).2

theorem head?_dependencyList {ts : List Term} {rest : List Char} (h : Stops rest) :
    ∀ c ∈ (dependencyList (ts.map fun t => t.text.toList) ++ rest).head?,
      isNameChar c = false := by
  intro c hc
  unfold dependencyList at hc
  split at hc
  · exact isNameChar_eq_false (h c hc)
  · obtain rfl := Option.some.inj hc
    rfl

theorem copula_append_inj {copula copula' : Copula} {rest rest' : List Char}
    (h : copula.symbol.toList ++ rest = copula'.symbol.toList ++ rest') :
    copula = copula' ∧ rest = rest' := by
  have hlength : copula.symbol.toList.length = copula'.symbol.toList.length := by
    rw [copula.length_symbol, copula'.length_symbol]
  obtain ⟨hsymbol, hrest⟩ := List.append_inj h hlength
  have hsome := copula.ofSymbol?_symbol
  rw [hsymbol, copula'.ofSymbol?_symbol] at hsome
  exact ⟨(Option.some.inj hsome).symm, hrest⟩

/-- The text of a term shows its skeleton, and where it ends. -/
theorem text_append_inj {s : Term} (hs : s.Named) : s.IsShown := by
  -- On the first of the two terms; the second one has the same outline, and so is of the same form.
  induction hs with
  | @atom name nonempty characters =>
    intro t rest rest' ht hrest hrest' h
    have houtline := outlineOf_text ht rest'
    rw [← h, outlineOf_text (.atom nonempty characters)] at houtline
    cases ht with
    | atom _ characters' =>
      obtain ⟨hname, hmore⟩ := name_append_inj characters characters'
        (fun c hc => isNameChar_eq_false (hrest c hc))
        (fun c hc => isNameChar_eq_false (hrest' c hc)) h
      rw [String.toList_inj.1 hname]
      exact ⟨rfl, hmore⟩
    | _ => exact absurd houtline (by simp [outline])
  | @var kind name dependencies nonempty characters all ih =>
    intro t rest rest' ht hrest hrest' h
    have houtline := outlineOf_text ht rest'
    rw [← h, outlineOf_text (.var nonempty characters all)] at houtline
    cases ht with
    | var _ characters' all' =>
      rw [toList_text_var, toList_text_var, List.cons_append, List.cons_append, List.append_assoc,
        List.append_assoc] at h
      -- Symbol, name and dependencies one by one; two symbols are the same for kinds that differ
      -- only in what is put into a skeleton.
      obtain ⟨hsymbol, hname⟩ := List.cons.inj h
      obtain ⟨hname, hlist⟩ := name_append_inj characters characters'
        (head?_dependencyList hrest) (head?_dependencyList hrest') hname
      obtain ⟨hskeletons, hmore⟩ := dependencies_append_inj ih all all' hrest hrest' hlist
      refine ⟨?_, hmore⟩
      rw [untagged, untagged, skeleton, skeleton, untag_eq_of_symbol_eq hsymbol,
        String.toList_inj.1 hname, hskeletons]
    | _ => exact absurd houtline (by simp [outline])
  | @compound connector operands intervals all ih =>
    intro t rest rest' ht hrest hrest' h
    have houtline := outlineOf_text ht rest'
    rw [← h, outlineOf_text (.compound all)] at houtline
    cases ht with
    | compound all' =>
      rw [toList_text_compound, toList_text_compound] at h
      simp only [List.append_assoc, List.singleton_append] at h
      obtain ⟨rfl, hbody⟩ := opening_inj h
      have hcomma : closing connector ≠ ',' := by
        cases connector <;> decide
      obtain ⟨hskeletons, hmore⟩ :=
        operands_append_inj (startsTerm_closing connector) hcomma ih all all' hbody
      exact ⟨by rw [untagged, untagged, skeleton, skeleton, hskeletons], hmore⟩
    | _ => exact absurd houtline (by simp [outline])
  | @statement subject copula predicate interval left right ihs ihp =>
    intro t rest rest' ht hrest hrest' h
    have houtline := outlineOf_text ht rest'
    rw [← h, outlineOf_text (.statement left right)] at houtline
    cases ht with
    | statement left' right' =>
      rw [toList_text_statement, toList_text_statement] at h
      simp only [List.cons_append, List.append_assoc, List.nil_append] at h
      obtain ⟨hsubject, hmiddle⟩ :=
        ihs left' (stops_cons rfl _) (stops_cons rfl _) (List.cons.inj h).2
      -- The copula stands where the subject ends, which is the same place in both texts.
      obtain ⟨rfl, hright⟩ := copula_append_inj (List.cons.inj hmiddle).2
      obtain ⟨hpredicate, hend⟩ :=
        ihp right' (stops_cons rfl _) (stops_cons rfl _) (List.cons.inj hright).2
      rw [untagged, untagged] at hsubject hpredicate
      rw [untagged, untagged, skeleton, skeleton, hsubject, hpredicate]
      exact ⟨rfl, (List.cons.inj hend).2⟩
    | _ => exact absurd houtline (by simp [outline])

/-- Terms with the same text differ in nothing that is written. -/
theorem text_eq_iff {s t : Term} (hs : s.Named) (ht : t.Named) :
    s.text = t.text ↔ s.untagged = t.untagged := by
  constructor
  · intro h
    have hstop : Stops [] := fun c hc => absurd hc (by simp)
    exact (text_append_inj hs ht hstop hstop (by rw [h])).1
  · intro h
    have htext := congrArg text h
    rwa [text_untagged, text_untagged] at htext

end Term

end NonAxiomatic
