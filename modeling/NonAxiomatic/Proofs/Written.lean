import NonAxiomatic.Proofs.RoundTrip

/-!
# How terms are read

What is known of a term because it was read from some text (`Term.Written`), beyond its being
well-formed. Its names are names. Where an operand of a compound could have been taken for a time
gap, it was, so that no operand is a name made up of digits. A list of dependencies is cut at all
its commas, whatever brackets they stand in, so that there is no comma in a dependency; and a
variable is of the kind that its mark and its dependencies show.

**Theorem (`Term.written_parse`).** Every term that is read is written in this way.
-/

namespace NonAxiomatic

namespace Term

open Text

/-- Written as the terms that are read. -/
inductive Written : Term → Prop where
  | atom {name : String} (nonempty : name ≠ "")
      (characters : ∀ c ∈ name.toList, isNameChar c = true) : Written (.atom name)
  | var {kind : VariableKind} {name : String} {dependencies : List Term} (nonempty : name ≠ "")
      (characters : ∀ c ∈ name.toList, isNameChar c = true)
      (shown : kind = shownKind kind dependencies) (formed : ∀ d ∈ dependencies, d.Formed)
      (undivided : ∀ d ∈ dependencies, ',' ∉ d.spelling) (all : ∀ d ∈ dependencies, Written d) :
      Written (.var kind name dependencies)
  | compound {connector : Connector} {operands : List Term} {intervals : List UInt32}
      (terms : ∀ t ∈ operands, t.isNumber = false) (all : ∀ t ∈ operands, Written t) :
      Written (.compound connector operands intervals)
  | statement {subject : Term} {copula : Copula} {predicate : Term} {interval : UInt32}
      (left : Written subject) (right : Written predicate) :
      Written (.statement subject copula predicate interval)

variable {t u : Term} {ts : List Term} {connector : Connector} {text : List Char}

theorem Written.named (h : t.Written) : t.Named := by
  induction h with
  | atom nonempty characters => exact .atom nonempty characters
  | var nonempty characters _ _ _ _ ih => exact .var nonempty characters ih
  | compound _ _ ih => exact .compound ih
  | statement _ _ ihs ihp => exact .statement ihs ihp

/-! ## Building -/

theorem written_composeFlat (terms : ∀ t ∈ ts, t.isNumber = false) (all : ∀ t ∈ ts, t.Written)
    (intervals : List UInt32) : (composeFlat connector ts intervals).Written := by
  unfold composeFlat
  split
  · exact .compound (fun t ht => terms t (mem_stableSort.1 ht))
      fun t ht => all t (mem_stableSort.1 ht)
  · exact .compound terms all

theorem written_compose (terms : ∀ t ∈ ts, t.isNumber = false) (all : ∀ t ∈ ts, t.Written)
    (intervals : List UInt32) : (compose connector ts intervals).Written := by
  unfold compose
  split
  · refine written_composeFlat ?_ ?_ []
    · intro t ht
      obtain ⟨u, _, rfl⟩ := List.mem_map.1 ht
      rfl
    · intro t ht
      obtain ⟨u, hu, rfl⟩ := List.mem_map.1 ht
      exact written_composeFlat (by simpa using terms u hu) (by simpa using all u hu) []
  · exact written_composeFlat terms all intervals

theorem written_relate (ht : t.Written) (hu : u.Written) (copula : Copula) (interval : UInt32) :
    (relate t copula u interval).Written := by
  unfold relate
  split
  · exact .statement hu ht
  · exact .statement ht hu

/-! ## Commas -/

theorem comma_not_mem_name {name : String} (h : ∀ c ∈ name.toList, isNameChar c = true) :
    ',' ∉ name.toList := fun hmem => absurd (h ',' hmem) (by decide)

theorem comma_not_mem_relate (ht : ',' ∉ t.spelling) (hu : ',' ∉ u.spelling) (copula : Copula)
    (interval : UInt32) : ',' ∉ (relate t copula u interval).spelling := by
  have hsymbol : ',' ∉ copula.symbol.toList := by
    cases copula <;> simp [Copula.symbol]
  unfold relate
  split <;> rw [spelling_statement] <;> simp [ht, hu, hsymbol]

theorem comma_not_mem_singleton {set : Connector} (hset : set.isSet = true)
    (ht : ',' ∉ t.spelling) (intervals : List UInt32) :
    ',' ∉ (compose set [t] intervals).spelling := by
  have hends : ',' ∉ opening set ∧ ',' ≠ closing set := by
    cases set with
    | extensionalSet | intensionalSet => decide
    | _ => exact absurd hset (by decide)
  have hsingle : set.isSet = true → [t].length ≤ 1 := fun _ => Nat.le_refl 1
  rw [compose_eq_compound hsingle fun _ => List.pairwise_singleton _ _, spelling_compound]
  simp [ht, hends]

theorem comma_not_mem_var {kind : VariableKind} {name : String}
    (h : ∀ c ∈ name.toList, isNameChar c = true) (hfew : ts.length ≤ 1)
    (hts : ∀ t ∈ ts, ',' ∉ t.spelling) : ',' ∉ (var kind name ts).spelling := by
  have hsymbol : ',' ≠ kind.symbol := by
    cases kind <;> decide
  rw [spelling_var h]
  rcases ts with _ | ⟨t, _ | ⟨u, ts⟩⟩
  · simp [dependencyList, hsymbol, comma_not_mem_name h]
  · simp [dependencyList, hsymbol, comma_not_mem_name h, hts t]
  · simp at hfew

/-! ## Reading -/

theorem shownKind_markedKind (symbol : Char) (ts : List Term) :
    shownKind (markedKind symbol ts) ts = markedKind symbol ts := by
  cases hquery : symbol == '?' <;> cases hempty : ts.isEmpty <;>
    simp [shownKind, markedKind, hquery, hempty]

theorem mem_dropIndices {c : Char} {cs : List Char} {inNumber : Bool} (h : c ∈ cs)
    (hcomma : c ≠ ',') (hdigit : c.isDigit = false) : c ∈ dropIndices inNumber cs := by
  induction cs generalizing inNumber with
  | nil => exact absurd h (by simp)
  | cons d cs ih =>
    rw [dropIndices]
    rcases List.mem_cons.1 h with rfl | h
    · simp [hcomma, hdigit]
    · split
      · exact ih h
      · split
        · exact ih h
        · exact List.mem_cons_of_mem _ (ih h)

theorem opensBracket_not_nameChar {c : Char} (h : opensBracket c = true) :
    isNameChar c = false ∧ c.isDigit = false ∧ c ≠ ',' := by
  simp only [opensBracket, opensSet, Bool.or_eq_true, beq_iff_eq] at h
  rcases h with rfl | rfl | rfl <;> decide

/-- What is read in place of an operand is no number. -/
theorem isNumber_of_readAt {depth : Nat} (h : readAt depth text = .ok t)
    (hcomma : ',' ∈ text → ∃ c ∈ text, opensBracket c = true)
    (hdigits : text.all Char.isDigit = false) : t.isNumber = false := by
  obtain ⟨depth, rfl⟩ := exists_succ_of_readAt h
  cases readAs_of_readAt h with
  | statement _ _ _ _ _ heq =>
    rw [heq, relate]
    split <;> rfl
  | compound _ reads =>
    obtain ⟨_, _, _, _, _, rfl⟩ := reads
    unfold compose composeFlat
    split <;> rfl
  | var _ reads =>
    obtain ⟨_, _, _, ht, _⟩ := readVariable_eq_ok reads
    obtain ⟨rfl, _⟩ := ofVariable_eq_ok.1 ht
    rfl
  | name reads =>
    obtain ⟨rfl, _, hchars⟩ := ofName_eq_ok.1 reads
    rw [String.toList_ofList] at hchars
    -- Brackets are no characters of names, and so there is no comma that could be left out.
    have hplain : ∀ c ∈ text, c ≠ ',' := by
      rintro c hc rfl
      obtain ⟨d, hd, hopen⟩ := hcomma hc
      obtain ⟨hname, hdigit, hne⟩ := opensBracket_not_nameChar hopen
      exact absurd (hchars d (mem_dropIndices hd hne hdigit)) (by simp [hname])
    rw [isNumber, String.toList_ofList, dropIndices_eq_self hplain, hdigits]

/-- What is known of a term that was read from a text. -/
structure Reflects (text : List Char) (t : Term) : Prop where
  formed : t.Formed
  written : t.Written
  /-- No comma comes into being. -/
  undivided : ',' ∉ text → ',' ∉ t.spelling

/-- The terms among the operands are known to be no numbers. -/
theorem reflects_readsOperands {depth : Nat} {whole : String} {body : List Char}
    (hread : ∀ text t, readAt depth text = .ok t → Reflects text t)
    (h : ReadsOperands (readAt depth) whole connector body t) :
    Reflects (opening connector ++ body ++ [closing connector]) t := by
  have hformed := formed_readsOperands (fun text t ht => (hread text t ht).formed) h
  obtain ⟨tokens, operands, htokens, hall, hne, rfl⟩ := h
  have hterm : ∀ u ∈ operands.filterMap Operand.term?, ∃ token ∈ tokens,
      token.all Char.isDigit = false ∧ readAt depth token = .ok u := by
    intro u hu
    obtain ⟨x, hx, hterm⟩ := List.mem_filterMap.1 hu
    obtain ⟨token, htoken, hoperand⟩ := exists_of_mem_right hall hx
    obtain ⟨_, ⟨_, n, _, rfl⟩ | ⟨hdigits, v, hv, rfl⟩⟩ := readOperand_eq_ok.1 hoperand
    · exact absurd hterm (by simp [Operand.term?])
    · obtain rfl := Option.some.inj hterm
      exact ⟨token, htoken, hdigits, hv⟩
  have hcommas : ∀ token ∈ tokens, ',' ∈ token → ∃ c ∈ token, opensBracket c = true := by
    cases tokens with
    | nil => simp
    | cons token tokens =>
      obtain ⟨hfirst, hrest⟩ := exists_opensBracket_of_splitOperands htokens
      exact List.forall_mem_cons.2 ⟨hfirst rfl, hrest⟩
  refine ⟨hformed, written_compose ?_ ?_ _, ?_⟩
  · intro u hu
    obtain ⟨token, htoken, hdigits, hu⟩ := hterm u hu
    exact isNumber_of_readAt hu (hcommas token htoken) hdigits
  · intro u hu
    obtain ⟨token, _, _, hu⟩ := hterm u hu
    exact (hread token u hu).written
  · intro hcomma
    have hset : connector.isSet = true := by
      by_contra hset
      rw [opening_of_not_isSet (by simpa using hset)] at hcomma
      simp at hcomma
    have hbody : ',' ∉ body := fun hmem => hcomma (by simp [hmem])
    -- There is one operand then, and it is a term.
    obtain rfl := eq_of_splitOperands htokens hbody
    obtain ⟨x, _, hx, hnil, rfl⟩ := List.forall₂_cons_left_iff.1 hall
    obtain rfl := List.forall₂_nil_left_iff.1 hnil
    cases hx' : x with
    | gap n => exact absurd rfl (hx' ▸ hne)
    | term u =>
      subst hx'
      obtain ⟨token, htoken, _, hu⟩ := hterm u (by simp [Operand.term?])
      obtain rfl := List.mem_singleton.1 htoken
      exact comma_not_mem_singleton hset ((hread _ u hu).undivided hbody) _

theorem reflects_readAt {depth : Nat} (h : readAt depth text = .ok t) : Reflects text t := by
  induction depth generalizing text t with
  | zero => exact absurd h (by simp [readAt])
  | succ depth ih =>
    have hformed := formed_readAt h
    cases readAs_of_readAt h with
    | statement copula interval within hs hp heq =>
      subst heq
      refine ⟨hformed, written_relate (ih hs).written (ih hp).written _ _, fun hcomma => ?_⟩
      exact comma_not_mem_relate ((ih hs).undivided fun hmem => hcomma (within.1 hmem))
        ((ih hp).undivided fun hmem => hcomma (within.2 hmem)) _ _
    | compound heq reads =>
      subst heq
      exact reflects_readsOperands (fun _ _ => ih) reads
    | @var symbol rest heq reads =>
      subst heq
      obtain ⟨name, pieces, ds, ht, hds, hpieces, hfew⟩ := readVariable_eq_ok reads
      obtain ⟨rfl, nonempty, characters⟩ := ofVariable_eq_ok.1 ht
      have hall : ∀ d ∈ ds, d.Formed ∧ d.Written ∧ ',' ∉ d.spelling := by
        intro d hd
        obtain ⟨piece, hpiece, hread⟩ := exists_of_mem_right hds hd
        have hd := ih hread
        exact ⟨hd.formed, hd.written, hd.undivided (hpieces piece hpiece)⟩
      refine ⟨hformed, .var nonempty characters (shownKind_markedKind symbol ds).symm
        (fun d hd => (hall d hd).1) (fun d hd => (hall d hd).2.2) (fun d hd => (hall d hd).2.1),
        fun hcomma => ?_⟩
      have hlength := hfew fun hmem => hcomma (List.mem_cons_of_mem _ hmem)
      rw [hds.length_eq] at hlength
      exact comma_not_mem_var characters hlength fun d hd => (hall d hd).2.2
    | name reads =>
      obtain ⟨rfl, nonempty, characters⟩ := ofName_eq_ok.1 reads
      refine ⟨hformed, .atom nonempty characters, fun _ => ?_⟩
      rw [spelling_atom characters]
      exact comma_not_mem_name characters

/-- **Main theorem.** A term that is read is well-formed, and written as the terms that are read. -/
theorem written_parse {text : String} (h : parse text = .ok t) : t.Formed ∧ t.Written := by
  simp only [parse, parseChars] at h
  split at h
  · exact absurd h (by simp)
  · split at h
    · exact absurd h (by simp)
    · exact ⟨(reflects_readAt h).formed, (reflects_readAt h).written⟩

end Term

end NonAxiomatic
