import NonAxiomatic.Proofs.EngineSound
import NonAxiomatic.Proofs.Pooling

/-!
# Goals that are put in over and over

An engine to which nothing but one timeless goal for an operation is put in, with a cycle run each
time, does with the desires for this operation what a desk does (`Engine.Attends.turn`). So it
carries the operation out for the first 16 goals, if it is wanted enough each time, and then no
more: the base of the desire is full, and no new evidence comes into it.

* `Engine.carriesOut_iff`: how often the operation is carried out.
-/

namespace NonAxiomatic

/-! ## Operations -/

/-- A statement about terms that can be carried out. -/
structure Term.IsDeed (t : Term) : Prop where
  isStatement : t.isStatement = true
  isFirstOrder : t.isFirstOrder = true
  isOperation : t.isOperation = true
  plain : t.mentionsVariable = false

namespace Term

/-- The operation of a name as a statement. -/
theorem operation_eq_ok {name : String} {t : Term} (h : operation name = .ok t) :
    t = statement (compound .product [compound .extensionalSet [atom selfName] []] [])
      .inheritance (atom name) 0 ∧ ∀ c ∈ name.toList, isNameChar c = true := by
  cases hself : ofName selfName with
  | error e => simp [operation, hself, bind, Except.bind] at h
  | ok self =>
    cases hname : ofName name with
    | error e => simp [operation, hself, hname, bind, Except.bind] at h
    | ok predicate =>
      obtain ⟨rfl, _⟩ := ofName_eq_ok.1 hself
      obtain ⟨rfl, _, hchars⟩ := ofName_eq_ok.1 hname
      simp only [operation, hself, hname, bind, Except.bind, pure, Except.pure,
        Except.ok.injEq] at h
      exact ⟨h.symm, hchars⟩

theorem isDeed_operation {name : String} {t : Term} (h : operation name = .ok t) : t.IsDeed := by
  obtain ⟨rfl, hchars⟩ := operation_eq_ok h
  refine ⟨rfl, rfl, ?_, mentionsVariable_statement.2 ⟨?_, ?_⟩⟩
  · simp [isOperation, isSelf, text]
  · decide
  · apply mentionsVariable_eq_false_iff.2
    intro c hc
    have hname := hchars c hc
    constructor <;> rintro rfl <;> exact absurd hname (by decide)

namespace IsDeed

variable {t : Term}

theorem exists_eq (h : t.IsDeed) : ∃ subject copula predicate interval,
    t = statement subject copula predicate interval ∧ copula.isFirstOrder = true := by
  have hstatement := h.isStatement
  have hfirst := h.isFirstOrder
  cases t with
  | statement subject copula predicate interval =>
    exact ⟨subject, copula, predicate, interval, rfl, hfirst⟩
  | _ => exact absurd hstatement (by simp [Term.isStatement])

theorem isNegation (h : t.IsDeed) : t.isNegation = false := by
  obtain ⟨_, _, _, _, rfl, _⟩ := h.exists_eq
  rfl

theorem isHigherOrder (h : t.IsDeed) : t.isHigherOrder = false := by
  simp [Term.isHigherOrder, h.isFirstOrder]

theorem ofGoal (h : t.IsDeed) : PendingOperation.ofGoal t = [⟨t, 0⟩] := by
  obtain ⟨_, _, _, _, rfl, _⟩ := h.exists_eq
  rfl

theorem firstConjunct? (h : t.IsDeed) : Engine.firstConjunct? t = none := by
  obtain ⟨_, _, _, _, rfl, _⟩ := h.exists_eq
  rfl

end IsDeed

end Term

/-! ## What is known of an operation -/

/-- Nothing but events and desires is known of a term, and no way leads on from it. -/
structure Concept.Quiet (t : Term) (c : Concept) : Prop where
  beliefs : ∀ s ∈ c.beliefs.entries, s.isEvent = true ∧ s.statement = t
  /-- What is wanted is the term. -/
  desires : ∀ s ∈ c.desires.entries, s.statement = t
  superterms : c.supertermLinks.isEmpty = true
  explanations : c.explanationLinks.isEmpty = true

namespace Memory

variable {m : Memory} {settings : Settings} {t u : Term} {c : Concept}

/-- What is wanted of a term. -/
def desires (m : Memory) (settings : Settings) (t : Term) : Table :=
  match m.concept? t with
  | some c => c.desires
  | none => .empty settings.tableCapacity

/-- The concept of a term is quiet, if there is one. -/
def Quiet (m : Memory) (t : Term) : Prop := ∀ c, m.concept? t = some c → c.Quiet t

theorem holds_eq_isSome (m : Memory) (t : Term) : m.holds t = (m.concept? t).isSome := by
  rw [concept?, Option.isSome_map]
  exact Bag.contains_eq_isSome _ _

theorem concept?_rebudget (m : Memory) (key : String) (f : Budget → Budget) (u : Term) :
    concept? ⟨m.concepts.rebudget key f⟩ u = m.concept? u := by
  unfold concept?
  rw [Bag.get?_rebudget]
  split
  · rw [Option.map_map]
    rfl
  · rfl

section Conceptualize

variable {σ : Type} [DrawSource σ] {x : Memory × σ}

/-- Whether the concept of a term is as it was when it was made, but for links to its parts. -/
def IsNew (m : Memory) (settings : Settings) (t : Term) : Prop :=
  ∃ c, m.concept? t = some c ∧ c.beliefs = .empty settings.tableCapacity ∧
    c.desires = .empty settings.tableCapacity ∧
    c.supertermLinks = .empty settings.linkCapacity settings.bagLevels ∧
    c.explanationLinks = .empty settings.linkCapacity settings.bagLevels

/-- Links from elsewhere do not show at a concept, and links to its parts do not matter. -/
theorem IsNew.link (h : x.1.IsNew settings t) {source : Term} {kind : LinkKind}
    (hkind : source.text ≠ t.text ∨ kind = .term ∨ kind = .subterm) (target : Term)
    (priority : Double) : (Memory.link source kind target priority x).1.IsNew settings t := by
  obtain ⟨c, hc, hnew⟩ := h
  unfold Memory.link
  cases hs : x.1.concept? source with
  | none => exact ⟨c, hc, hnew⟩
  | some c' =>
    simp only [IsNew, concept?_modify]
    -- A link at another concept does not touch this one; one at this concept is of a kind that
    -- leaves alone what is looked at.
    by_cases htext : t.text = source.text
    · have hcc : c' = c := by
        rw [concept?, ← htext] at hs
        exact Option.some.inj (hs.symm.trans hc)
      subst hcc
      simp only [if_pos htext, hc, Option.map_some]
      refine ⟨_, rfl, ?_⟩
      have hkind' := hkind.resolve_left fun h => h htext.symm
      rcases c'.link_eq kind target priority x.2 with hl | hl <;> rw [hl]
      · exact hnew
      · rcases hkind' with rfl | rfl <;> exact hnew
    · simp only [if_neg htext]
      exact ⟨c, hc, hnew⟩

theorem IsNew.linkPart (h : x.1.IsNew settings t) {part : Term} (hpart : part.text ≠ t.text) :
    (Memory.linkPart t part x).1.IsNew settings t := by
  unfold Memory.linkPart
  split
  · exact h
  · exact (((h.link (.inr (.inl rfl)) _ _).link (.inl hpart) _ _).link (.inr (.inr rfl)) _ _).link
      (.inl hpart) _ _

theorem IsNew.linkParts (h : x.1.IsNew settings t) (parts : List Term)
    (hparts : ∀ part ∈ parts, part.text ≠ t.text) :
    (parts.foldl (fun m part => Memory.linkPart t part m) x).1.IsNew settings t := by
  induction parts generalizing x with
  | nil => exact h
  | cons part parts ih =>
    exact ih (h.linkPart (hparts part (by simp))) fun u hu => hparts u (by simp [hu])

theorem isNew_introduce (ht : t.IsDeed) (h : x.1.holds t = false) :
    (Memory.introduce settings t x).1.IsNew settings t := by
  have hput : IsNew
      ⟨(x.1.concepts.put t.text (Concept.empty settings t) .default x.2).2.1⟩ settings t := by
    rcases x.1.concepts.put_cases t.text (Concept.empty settings t) .default x.2 with
      ⟨hcontains, _⟩ | ⟨_, bag, hput, _⟩
    · exact absurd (h.symm.trans hcontains) (by decide)
    · refine ⟨Concept.empty settings t, ?_, rfl, rfl, rfl, rfl⟩
      rw [hput, concept?, Bag.get?_add, if_pos rfl]
      rfl
  have hparts := hput.linkParts (x := (_, (x.1.concepts.put t.text (Concept.empty settings t)
    .default x.2).2.2)) (t.components.filter fun part => !part.isVariable)
    fun part hmem heq => Nat.ne_of_lt (Term.length_text_lt (List.mem_filter.1 hmem).1)
      (congrArg String.length heq)
  obtain ⟨_, copula, _, _, rfl, hfirst⟩ := ht.exists_eq
  simp only [Memory.introduce, Memory.linkSides, hfirst, if_true]
  exact hparts

theorem concept?_link_eq_none (h : x.1.concept? t = none) (source : Term) (kind : LinkKind)
    (target : Term) (priority : Double) :
    (Memory.link source kind target priority x).1.concept? t = none := by
  unfold Memory.link
  split
  · exact h
  · rw [concept?_modify, h]
    split <;> rfl

theorem concept?_linkPart_eq_none (h : x.1.concept? t = none) (whole part : Term) :
    (Memory.linkPart whole part x).1.concept? t = none := by
  unfold Memory.linkPart
  split
  · exact h
  · exact concept?_link_eq_none (concept?_link_eq_none (concept?_link_eq_none
      (concept?_link_eq_none h _ _ _ _) _ _ _ _) _ _ _ _) _ _ _ _

theorem concept?_linkParts_eq_none (h : x.1.concept? t = none) (whole : Term)
    (parts : List Term) :
    (parts.foldl (fun m part => Memory.linkPart whole part m) x).1.concept? t = none := by
  induction parts generalizing x with
  | nil => exact h
  | cons part parts ih => exact ih (concept?_linkPart_eq_none h whole part)

/-- Only the term that a concept is made for gets one. -/
theorem concept?_introduce_eq_none (h : x.1.concept? t = none) (hne : t.text ≠ u.text) :
    (Memory.introduce settings u x).1.concept? t = none := by
  have hput : concept? ⟨(x.1.concepts.put u.text (Concept.empty settings u) .default
      x.2).2.1⟩ t = none := by
    -- The new concept has another key, and making room for it only takes concepts away.
    rw [concept?, Option.map_eq_none_iff] at h ⊢
    rw [Option.eq_none_iff_forall_ne_some]
    intro item hitem
    rcases Bag.get?_put hitem with hitem | ⟨hkey, _⟩
    · rw [h] at hitem
      exact absurd hitem (by simp)
    · exact hne hkey
  have hparts := concept?_linkParts_eq_none (x := (_, (x.1.concepts.put u.text
    (Concept.empty settings u) .default x.2).2.2)) hput u
    (u.components.filter fun part => !part.isVariable)
  simp only [Memory.introduce]
  -- The links to the parts and to the sides of the statement change concepts that are there.
  generalize List.foldl _ _ _ = x' at hparts ⊢
  unfold Memory.linkSides
  split
  · split
    · exact hparts
    · exact concept?_link_eq_none (concept?_link_eq_none hparts _ _ _ _) _ _ _ _
  · exact hparts

mutual

/-- A term gets no concept when terms with shorter texts get theirs. -/
theorem concept?_conceptualize_eq_none (settings : Settings) (u : Term) {x : Memory × σ}
    (h : x.1.concept? t = none) (hlt : u.text.length < t.text.length) :
    (Memory.conceptualize settings u x).1.concept? t = none := by
  -- The text of a part is shorter than that of the term, and the one looked for is longer than
  -- both.
  have hne : t.text ≠ u.text := fun heq => Nat.lt_irrefl t.text.length (heq ▸ hlt)
  have hpart : ∀ part ∈ u.components, part.text.length < t.text.length := fun part hmem =>
    Nat.lt_trans (Term.length_text_lt hmem) hlt
  match u with
  | .var .. => exact h
  | .atom name =>
    rw [Memory.conceptualize]
    split
    · exact h
    · exact concept?_introduce_eq_none h hne
  | .compound connector operands intervals =>
    rw [Memory.conceptualize]
    split
    · exact h
    · exact concept?_introduce_eq_none
        (concept?_conceptualizeAll_eq_none settings operands h hpart) hne
  | .statement subject copula predicate interval =>
    rw [Memory.conceptualize]
    split
    · exact h
    · have hsubject := concept?_conceptualize_eq_none settings subject h
        (hpart subject (by simp [Term.components]))
      exact concept?_introduce_eq_none (concept?_conceptualize_eq_none settings predicate hsubject
        (hpart predicate (by simp [Term.components]))) hne

theorem concept?_conceptualizeAll_eq_none (settings : Settings) (us : List Term)
    {x : Memory × σ}
    (h : x.1.concept? t = none) (hlt : ∀ u ∈ us, u.text.length < t.text.length) :
    (Memory.conceptualizeAll settings us x).1.concept? t = none := by
  match us with
  | [] => exact h
  | u :: us =>
    have hfirst := concept?_conceptualize_eq_none settings u h (hlt u (by simp))
    exact concept?_conceptualizeAll_eq_none settings us hfirst fun w hw => hlt w (by simp [hw])

end

/-- Making sure that an operation has a concept changes nothing about what is wanted of it. -/
theorem Quiet.conceptualize (settings : Settings) (h : x.1.Quiet t) (ht : t.IsDeed) :
    (Memory.conceptualize settings t x).1.Quiet t ∧
      (Memory.conceptualize settings t x).1.holds t = true ∧
      (Memory.conceptualize settings t x).1.desires settings t = x.1.desires settings t := by
  cases hh : x.1.holds t with
  -- A concept that is there is not touched. One that is not there is new in the end, as its parts,
  -- which are made first, have shorter texts.
  | true =>
    have hstay : Memory.conceptualize settings t x = x := by
      obtain ⟨_, _, _, _, rfl, _⟩ := ht.exists_eq
      rw [Memory.conceptualize, if_pos hh]
    rw [hstay]
    exact ⟨h, hh, rfl⟩
  | false =>
    have hnone : x.1.concept? t = none := by
      rw [holds_eq_isSome] at hh
      simpa using hh
    have hnew : (Memory.conceptualize settings t x).1.IsNew settings t := by
      obtain ⟨subject, copula, predicate, interval, rfl, _⟩ := ht.exists_eq
      rw [Memory.conceptualize, if_neg (by simp [hh])]
      apply isNew_introduce ht
      have hsubject := concept?_conceptualize_eq_none settings subject hnone
        (Term.length_text_lt (by simp [Term.components]))
      have hpredicate := concept?_conceptualize_eq_none settings predicate hsubject
        (Term.length_text_lt (by simp [Term.components]))
      rw [holds_eq_isSome, hpredicate]
      rfl
    obtain ⟨c, hc, hbeliefs, hdesires, hsuper, hexplanation⟩ := hnew
    -- A new concept has empty tables, and its links are of the kinds that are never followed here.
    refine ⟨?_, ?_, ?_⟩
    · intro c' hc'
      obtain rfl := Option.some.inj (hc.symm.trans hc')
      refine ⟨?_, ?_, ?_, ?_⟩
      · intro s hs
        rw [hbeliefs] at hs
        exact absurd hs (by simp [Table.empty])
      · intro s hs
        rw [hdesires] at hs
        exact absurd hs (by simp [Table.empty])
      · rw [hsuper]
        rfl
      · rw [hexplanation]
        rfl
    · rw [holds_eq_isSome, hc]
      rfl
    · simp only [desires, hc, hnone, hdesires]

end Conceptualize

theorem Quiet.rebudget (h : m.Quiet t) (key : String) (f : Budget → Budget) :
    Quiet ⟨m.concepts.rebudget key f⟩ t := by
  intro c hc
  rw [concept?_rebudget] at hc
  exact h c hc

theorem desires_rebudget (m : Memory) (key : String) (f : Budget → Budget) :
    desires ⟨m.concepts.rebudget key f⟩ settings t = m.desires settings t := by
  simp only [desires, concept?_rebudget]

theorem holds_rebudget (m : Memory) (key : String) (f : Budget → Budget) :
    holds ⟨m.concepts.rebudget key f⟩ t = m.holds t := by
  simp only [holds_eq_isSome, concept?_rebudget]

end Memory

/-! ## Engines that are asked for one thing only -/

/-- Events about one statement are not paired. -/
theorem Standpoint.deriveEvents_eq_nil (p : Standpoint) (ids : IdSupply) {s x : Sentence}
    (h : s.statement = x.statement) : p.deriveEvents ids s x = ([], ids) := by
  have hinfer : p.inferEvents s x = [] := by
    unfold inferEvents
    split
    · rfl
    · have hnone : Succession.inOrder? s x = none := by
        unfold Succession.inOrder?
        split
        · rw [if_pos (Term.beq_iff_text_eq.2 (congrArg Term.text h))]
        · rfl
      rw [hnone]
  simp [deriveEvents, hinfer, Conclusion.collect, Conclusion.numberAll]

namespace Engine

theorem pairEvent_eq_nil {p : Standpoint} {ids : IdSupply} {event : Sentence}
    {others : List Sentence} (h : ∀ s ∈ others, s.statement = event.statement) :
    pairEvent p ids event others = ([], ids) := by
  induction others with
  | nil => rfl
  | cons s others ih =>
    have hfirst := Standpoint.deriveEvents_eq_nil p ids (h s (by simp))
    have hrest := ih fun x hx => h x (by simp [hx])
    simp only [pairEvent, hfirst, hrest, List.append_nil]

variable {σ : Type} {settings : Settings} {t : Term} {d : Desk} {e : Engine σ} {s : Sentence}

/-- What an engine keeps about a statement is what is on a desk, and it knows of nothing else that
could lead to a goal for it. -/
structure Attends (settings : Settings) (t : Term) (d : Desk) (e : Engine σ) : Prop where
  settings_eq : e.settings = settings
  room : 0 < e.input.capacity
  events : ∀ s ∈ e.events.events, s.statement = t
  quiet : e.memory.Quiet t
  desires : e.memory.desires settings t = d.desires
  acted : e.acted = d.acted
  ids : e.ids = d.ids

/-- What is seen leaves what waits and what is to be done as it is. -/
structure Unmoved (e e' : Engine σ) : Prop where
  input : e'.input = e.input
  commands : e'.commands = e.commands
  operations : e'.operations = e.operations
  currentGoal : e'.currentGoal = e.currentGoal

namespace Attends

theorem exists_concept (h : e.Attends settings t d) (hh : e.memory.holds t = true) :
    ∃ c, e.memory.concept? t = some c ∧ c.Quiet t ∧ c.desires = d.desires := by
  rw [Memory.holds_eq_isSome, Option.isSome_iff_exists] at hh
  obtain ⟨c, hc⟩ := hh
  refine ⟨c, hc, h.quiet c hc, ?_⟩
  rw [← h.desires, Memory.desires, hc]

theorem rebudget (h : e.Attends settings t d) (key : String) (f : Budget → Budget) :
    Attends settings t d { e with memory := ⟨e.memory.concepts.rebudget key f⟩ } :=
  ⟨h.settings_eq, h.room, h.events, h.quiet.rebudget key f,
    (Memory.desires_rebudget _ _ _).trans h.desires, h.acted, h.ids⟩

end Attends

/-- The revision of a sentence for an operation is a sentence for it. -/
theorem statement_revise {p : Standpoint} {x : Sentence} {c : Conclusion} (ht : t.IsDeed)
    (hs : s.statement = t) (h : revise p s x = some c) : c.statement = t := by
  obtain ⟨_, _, _, w, hw, h⟩ := Standpoint.revise_eq_some.1 h
  obtain ⟨_, _, _, rfl⟩ := Standpoint.conclude_eq_some.1 h
  obtain ⟨_, _, _, _, rfl, _⟩ := ht.exists_eq
  simp only [revisedStatement?, hs, Option.some.injEq] at hw
  exact hw.symm

/-- What is put into a table for an operation is for it. -/
theorem statement_put (p : Standpoint) {table : Table} (ids : IdSupply) (ht : t.IsDeed)
    (hs : s.statement = t) (h : ∀ x ∈ table.entries, x.statement = t) :
    ∀ x ∈ (table.put p s ids).2.1.entries, x.statement = t := by
  intro x hx
  rcases table.put_cases p s ids with hput | ⟨partner, _, i, revision, _, hr, hput⟩ <;>
    rw [hput] at hx
  · rcases Table.mem_insert hx with hx | rfl
    · exact h x hx
    · exact hs
  · rcases Table.mem_insert hx with hx | rfl
    · exact h x (List.mem_of_mem_eraseIdx hx)
    · exact statement_revise ht hs hr

namespace Attends

theorem want (h : e.Attends settings t d) (ht : t.IsDeed) (hh : e.memory.holds t = true)
    (hs : s.statement = t) : (e.want s).Attends settings t (d.want e.standpoint s) ∧
      (e.want s).memory.holds t = true := by
  obtain ⟨c, hc, hquiet, hdesires⟩ := h.exists_concept hh
  have hput := statement_put e.standpoint e.ids ht hs hquiet.desires
  simp only [Engine.want, hs, hc, Desk.want, ← hdesires, ← h.ids, ← h.acted]
  generalize c.desires.put e.standpoint s e.ids = x at hput ⊢
  obtain ⟨revised, desires, ids⟩ := x
  have hc' : (e.memory.modify t fun c => { c with desires }).concept? t =
      some { c with desires } := by
    rw [Memory.concept?_modify, if_pos rfl, hc]
    rfl
  refine ⟨⟨h.settings_eq, h.room, h.events, ?_, ?_, rfl, rfl⟩, ?_⟩
  · intro c' hc''
    obtain rfl := Option.some.inj (hc'.symm.trans hc'')
    exact ⟨hquiet.beliefs, hput, hquiet.superterms, hquiet.explanations⟩
  · simp only [Memory.desires, hc']
  · simp only [Memory.holds_eq_isSome, hc', Option.isSome_some]

end Attends

theorem act_eq (ht : t.IsDeed) (hs : s.statement = t) (hcurrent : e.currentGoal = none) :
    e.act s = if e.acted.settles s then { e with acted := e.acted.settle s }
      else { e with operations := [⟨t, 0⟩], acted := e.acted.record s, currentGoal := some s } := by
  simp only [act, hs, ht.isOperation, ht.isNegation, queueOperations, hcurrent, ht.ofGoal]
  rfl

theorem want_eq (e : Engine σ) (s : Sentence) :
    ∃ ids acted memory, e.want s = { e with ids, acted, memory } := by
  unfold want
  split
  · exact ⟨_, _, _, rfl⟩
  · exact ⟨_, _, _, rfl⟩

section Draws

variable [DrawSource σ]

theorem follow_eq_none {m : Memory} {c : Concept} {draws : σ} (kind : LinkKind)
    (h : (c.links kind).isEmpty = true) : m.follow c kind draws = (none, draws) := by
  simp [Memory.follow, Bag.peek, Bag.drawFrom, h]

theorem means_eq_none (h : e.memory.Quiet t) : e.means t = (none, e) := by
  unfold means
  split
  · rfl
  · rename_i c hc
    rw [follow_eq_none .explanation (h c hc).explanations]
    rfl

/-- Nothing is derived on the way when an operation is pursued. -/
theorem pursue_eq (ht : t.IsDeed) (hs : s.statement = t) (h : e.memory.Quiet t)
    (hcurrent : e.currentGoal = none) :
    e.pursue s = ([], if e.standpoint.pursues s then e.act s else e) := by
  have hmeans : (e.act s).means t = (none, e.act s) := by
    apply means_eq_none
    rw [act_eq ht hs hcurrent]
    split <;> exact h
  unfold pursue
  cases hp : e.standpoint.pursues s with
  | false => rfl
  | true =>
    simp only [hs, ht.firstConjunct?, hmeans, Option.bind_none, Bool.not_true, Bool.false_eq_true,
      if_false, if_true, ite_self]

theorem Attends.conceptualize (h : e.Attends settings t d) (ht : t.IsDeed) :
    (e.conceptualize t).Attends settings t d ∧ (e.conceptualize t).memory.holds t = true := by
  obtain rfl := h.settings_eq
  obtain ⟨hquiet, hh, hdesires⟩ :=
    Memory.Quiet.conceptualize (x := (e.memory, e.draws)) e.settings h.quiet ht
  exact ⟨⟨rfl, h.room, h.events, hquiet, hdesires.trans h.desires, h.acted, h.ids⟩, hh⟩

/-- What is wanted most is pursued as it is on a desk. -/
theorem Attends.pursueBest (h : e.Attends settings t d) (ht : t.IsDeed)
    (hh : e.memory.holds t = true) (hoperations : e.operations = [])
    (hcurrent : e.currentGoal = none) : ∃ e', (match (e.memory.concept? t).bind fun c =>
        c.desires.best? with
      | none => e
      | some best =>
        let (derived, e) := e.pursue best
        e.enqueueDerived derived) = e' ∧
      e'.Attends settings t (d.pursue e.standpoint).2 ∧ e'.memory.holds t = true ∧
      e'.input = e.input ∧ e'.commands = e.commands ∧
      e'.operations = if (d.pursue e.standpoint).1 then [⟨t, 0⟩] else [] := by
  obtain ⟨c, hc, hquiet, hdesires⟩ := h.exists_concept hh
  have hbest : ((e.memory.concept? t).bind fun c => c.desires.best?) = d.desires.best? := by
    rw [hc, ← hdesires]
    rfl
  refine ⟨_, rfl, ?_⟩
  rw [hbest]
  unfold Desk.pursue
  cases hb : d.desires.best? with
  | none => exact ⟨h, hh, rfl, rfl, hoperations⟩
  | some best =>
    have hs : best.statement = t := hquiet.desires best (by
      rw [hdesires]
      exact List.mem_of_mem_head? hb)
    simp only [pursue_eq ht hs h.quiet hcurrent, act_eq ht hs hcurrent, h.acted]
    -- Either the desire is too weak, or it is settled, or its operation is queued; the desk does
    -- the same.
    by_cases hp : e.standpoint.pursues best = true
    · simp only [hp, Bool.not_true, Bool.false_eq_true, if_false, if_true]
      by_cases ha : d.acted.settles best = true
      · simp only [ha, if_true]
        exact ⟨⟨h.settings_eq, h.room, h.events, h.quiet, h.desires, rfl, h.ids⟩, hh, rfl, rfl,
          hoperations⟩
      · simp only [ha, if_false, Bool.false_eq_true]
        exact ⟨⟨h.settings_eq, h.room, h.events, h.quiet, h.desires, rfl, h.ids⟩, hh, rfl, rfl, rfl⟩
    · simp only [Bool.not_eq_true] at hp
      simp only [hp, Bool.not_false, if_true, Bool.false_eq_true, if_false]
      exact ⟨h, hh, rfl, rfl, hoperations⟩

/-- A goal for an operation is dealt with as it is on a desk. -/
theorem Attends.processGoal (h : e.Attends settings t d) (ht : t.IsDeed) (hs : s.statement = t)
    (hoperations : e.operations = []) (hcurrent : e.currentGoal = none) :
    ∃ e', e.processGoal s = e' ∧
      e'.Attends settings t ((d.want e.standpoint s).pursue e.standpoint).2 ∧
      e'.memory.holds t = true ∧ e'.input = e.input ∧ e'.commands = e.commands ∧
      e'.operations = if ((d.want e.standpoint s).pursue e.standpoint).1 then [⟨t, 0⟩] else [] := by
  obtain ⟨h₁, hh₁⟩ := h.conceptualize ht
  have h₂ := (h₁.rebudget t.text
    (·.strengthenPriority (e.conceptualize t).settings.activation)).rebudget
    t.text (·.withQuality goalQuality)
  have hh₂ := (Memory.holds_rebudget (t := t) ⟨(e.conceptualize t).memory.concepts.rebudget t.text
    (·.strengthenPriority (e.conceptualize t).settings.activation)⟩ t.text
    (·.withQuality goalQuality)).trans ((Memory.holds_rebudget _ _ _).trans hh₁)
  obtain ⟨h₃, hh₃⟩ := h₂.want ht hh₂ hs
  obtain ⟨ids, acted, memory, heq⟩ := want_eq _ s
  rw [heq] at h₃ hh₃
  obtain ⟨e', he', hpursued⟩ := h₃.pursueBest ht hh₃ hoperations hcurrent
  refine ⟨e', ?_, hpursued⟩
  unfold Engine.processGoal
  simp only [hs, hh₁, Bool.not_true, Bool.false_eq_true, if_false]
  rw [← he', ← heq]
  rfl

/-- Nothing is derived from what is seen of an operation. -/
theorem deriveSemantically_eq_nil (ht : t.IsDeed) (h : e.memory.Quiet t) (hs : s.statement = t)
    (hevent : s.isEvent = true) : e.deriveSemantically s = ([], e) := by
  have hcounterpart : e.counterpart s = (none, e) := by
    obtain ⟨_, _, _, _, heq, _⟩ := ht.exists_eq
    have hcompound : t.isCompound = false := by
      rw [heq]
      rfl
    unfold counterpart
    simp only [hs]
    cases hc : e.memory.concept? t with
    | none => rfl
    | some c =>
      simp only [hcompound, ht.isFirstOrder, hevent, Bool.not_true, Bool.false_eq_true, if_false,
        if_true, follow_eq_none .explanation (h c hc).explanations,
        follow_eq_none .superterm (h c hc).superterms]
  simp only [deriveSemantically, hcounterpart]

end Draws

/-- What is put into the beliefs about an operation by seeing it has been seen. -/
theorem isEvent_put (p : Standpoint) {table : Table} (ids : IdSupply) (ht : t.IsDeed)
    (hs : s.statement = t) (hevent : s.isEvent = true)
    (h : ∀ x ∈ table.entries, x.isEvent = true ∧ x.statement = t) :
    ∀ x ∈ (table.put p s ids).2.1.entries, x.isEvent = true ∧ x.statement = t := by
  intro x hx
  refine ⟨?_, statement_put p ids ht hs (fun y hy => (h y hy).2) x hx⟩
  rcases table.put_cases p s ids with hput | ⟨partner, _, i, revision, _, hr, hput⟩ <;>
    rw [hput] at hx
  · rcases Table.mem_insert hx with hx | rfl
    · exact (h x hx).1
    · exact hevent
  · rcases Table.mem_insert hx with hx | rfl
    · exact (h x (List.mem_of_mem_eraseIdx hx)).1
    · have hstatement := statement_revise ht hs hr
      obtain ⟨_, _, _, w, _, hr⟩ := Standpoint.revise_eq_some.1 hr
      obtain ⟨_, _, _, rfl⟩ := Standpoint.conclude_eq_some.1 hr
      have hw : w = t := hstatement
      simp [Conclusion.number, Sentence.isEvent, Sentence.occurrence, hw, ht.isHigherOrder]
        at hevent ⊢
      simp [hevent]

/-- An operation that is seen is believed to have happened; nothing else changes but that
identities are given out. -/
theorem Attends.believe (h : e.Attends settings t d) (ht : t.IsDeed)
    (hh : e.memory.holds t = true) (hs : s.statement = t) (hevent : s.isEvent = true) :
    ∃ e' ids, e.believe s = e' ∧ e'.Attends settings t { d with ids } ∧
      (ids = d.ids ∨ ids = d.ids.advance) ∧ e.Unmoved e' := by
  -- Whether the event is revised or not decides only if an identity is used up.
  obtain ⟨c, hc, hquiet, hdesires⟩ := h.exists_concept hh
  have hput := isEvent_put e.standpoint e.ids ht hs hevent hquiet.beliefs
  have hids : (c.beliefs.put e.standpoint s e.ids).2.2 = d.ids ∨
      (c.beliefs.put e.standpoint s e.ids).2.2 = d.ids.advance := by
    rw [← h.ids]
    rcases c.beliefs.put_cases e.standpoint s e.ids with hput | ⟨_, _, _, _, _, _, hput⟩ <;>
      rw [hput]
    · exact .inl rfl
    · exact .inr rfl
  simp only [Engine.believe, hs, hc]
  generalize c.beliefs.put e.standpoint s e.ids = x at hput hids ⊢
  obtain ⟨revised, beliefs, ids⟩ := x
  have hc' : (e.memory.modify t fun c => { c with beliefs }).concept? t =
      some { c with beliefs } := by
    rw [Memory.concept?_modify, if_pos rfl, hc]
    rfl
  refine ⟨_, ids, rfl, ⟨h.settings_eq, h.room, h.events, fun c' hc'' => ?_, ?_, h.acted, rfl⟩,
    hids, ⟨rfl, rfl, rfl, rfl⟩⟩
  · obtain rfl := Option.some.inj (hc'.symm.trans hc'')
    exact ⟨hput, hquiet.desires, hquiet.superterms, hquiet.explanations⟩
  · simp only [Memory.desires, hc', hdesires]

theorem Attends.observe (h : e.Attends settings t d) (hs : s.statement = t) :
    ∃ events, e.observe s = ([], { e with events }) ∧ Attends settings t d { e with events } := by
  have hpair : pairEvent e.standpoint e.ids s e.events.events = ([], e.ids) :=
    pairEvent_eq_nil fun x hx => (h.events x hx).trans hs.symm
  refine ⟨(e.events.push s).2, ?_, h.settings_eq, h.room, fun x hx => ?_, h.quiet, h.desires,
    h.acted, h.ids⟩
  · simp only [Engine.observe, hpair, ite_self]
  · rcases EventWindow.mem_push hx with hx | ⟨rfl, _⟩
    · exact h.events x hx
    · exact hs

/-- An engine that attends to one operation, between two cycles. -/
structure Idle (settings : Settings) (t : Term) (d : Desk) (e : Engine σ) : Prop where
  attends : e.Attends settings t d
  input : e.input.entries = []
  operations : e.operations = []
  currentGoal : e.currentGoal = none

theorem idle_start (settings : Settings) (t : Term) (draws : σ) :
    (start settings draws).Idle settings t (.new settings.tableCapacity) := by
  have hnone : (start settings draws).memory.concept? t = none := by
    rw [Memory.concept?, Option.map_eq_none_iff]
    exact Bag.get?_empty _ _ _
  refine ⟨⟨rfl, ?_, fun s hs => absurd hs (by simp [start, EventWindow.empty]), fun c hc => ?_, ?_,
    rfl, rfl⟩, rfl, rfl, rfl⟩
  · show 0 < max settings.inputCapacity 1
    omega
  · rw [hnone] at hc
    exact absurd hc (by simp)
  · rw [Memory.desires, hnone]
    rfl

section Draws

variable [DrawSource σ]

/-- An operation that is seen leaves an engine as it was, but for what has been seen. -/
theorem Attends.processJudgment (h : e.Attends settings t d) (ht : t.IsDeed)
    (hs : s.statement = t) (hevent : s.isEvent = true) (hinput : s.fromInput = true) :
    ∃ e' ids, e.processJudgment s = e' ∧ e'.Attends settings t { d with ids } ∧
      (ids = d.ids ∨ ids = d.ids.advance) ∧ e.Unmoved e' := by
  -- An event neither has a contraposition nor finds another event to be paired with.
  obtain ⟨events, hobserve, h₁⟩ := h.observe hs
  obtain ⟨h₂, hh₂⟩ := h₁.conceptualize ht
  have hcontrapose : contraposeConjunction s = none := by
    simp [contraposeConjunction, hevent]
  generalize he₂ : Engine.conceptualize { e with events } t = e₂ at h₂ hh₂
  have hsame : e.Unmoved e₂ := by
    rw [← he₂]
    exact ⟨rfl, rfl, rfl, rfl⟩
  have h₃ := (h₂.rebudget t.text (·.strengthenPriority e₂.settings.activation)).rebudget t.text
    (·.strengthenQuality)
  have hh₃ := (Memory.holds_rebudget (t := t) ⟨e₂.memory.concepts.rebudget t.text
    (·.strengthenPriority e₂.settings.activation)⟩ t.text (·.strengthenQuality)).trans
    ((Memory.holds_rebudget _ _ _).trans hh₂)
  obtain ⟨e₄, ids, hbelieved, h₄, hids, hsame₄⟩ := h₃.believe ht hh₃ hs hevent
  -- The best belief is an event about an operation, from which nothing is derived.
  have hbest : ∀ best, e₄.bestBelief? t = some best →
      e₄.deriveSemantically best = ([], e₄) := by
    intro best hbest
    simp only [bestBelief?, Option.bind_eq_bind, Option.bind_eq_some_iff] at hbest
    obtain ⟨c, hc, hbest⟩ := hbest
    obtain ⟨hevent, hstatement⟩ := (h₄.quiet c hc).beliefs best (List.mem_of_mem_head? hbest)
    exact deriveSemantically_eq_nil ht h₄.quiet hstatement hevent
  refine ⟨e₄, ids, ?_, h₄, hids, ⟨hsame₄.input.trans hsame.input,
    hsame₄.commands.trans hsame.commands, hsame₄.operations.trans hsame.operations,
    hsame₄.currentGoal.trans hsame.currentGoal⟩⟩
  have hbelieved' : Engine.believe { e₂ with memory :=
      (e₂.memory.activate e₂.settings t).strengthenQuality t } s = e₄ := hbelieved
  have done : ∀ x : List Sentence × Engine σ, x = ([], e₄) →
      x.2.enqueueDerived ([] ++ [] ++ x.1) = e₄ := by
    rintro _ rfl
    rfl
  unfold Engine.processJudgment
  simp only [hevent, hinput, Bool.and_self, if_true, hobserve, hs, he₂, hh₂, Bool.not_true,
    Bool.false_eq_true, if_false, hcontrapose, Option.toList_none, Conclusion.numberAll,
    hbelieved']
  apply done
  split
  · exact hbest _ ‹_›
  · rfl

/-- Carrying an operation out takes an identity for what is seen of it, and one for its
revision. -/
theorem Attends.execute (h : e.Attends settings t d) (ht : t.IsDeed) (desirability : Double) :
    ∃ e' d', e.execute desirability t = e' ∧ e'.Attends settings t d' ∧ d.Later d' ∧
      e'.input = e.input ∧ e'.commands = e.commands.push t ∧ e'.operations = e.operations ∧
      e'.currentGoal = e.currentGoal := by
  -- First the command is given and shown; then the operation comes back as an event.
  have h₁ : Attends settings t { d with ids := d.ids.advance } { e with
      commands := e.commands.push t
      outputs := e.outputs.push (.executed t.text desirability e.cycle)
      ids := e.ids.advance } :=
    ⟨h.settings_eq, h.room, h.events, h.quiet, h.desires, h.acted, congrArg IdSupply.advance h.ids⟩
  obtain ⟨e', ids, he', h', hids, hsame⟩ := h₁.processJudgment
    (s := { Sentence.fresh t (.judgment .default) e.ids.peek (some e.cycle) with
      fromInput := true })
    ht rfl rfl rfl
  refine ⟨e', _, he', h', ⟨?_, ?_, rfl⟩, hsame.input, hsame.commands, hsame.operations,
    hsame.currentGoal⟩
  · rcases hids with rfl | rfl
    · exact d.ids.isBefore_advance
    · exact d.ids.isBefore_advance.trans d.ids.advance.isBefore_advance
  · have := d.ids.next_advance_le
    have := d.ids.advance.next_advance_le
    rcases hids with rfl | rfl <;> simp only <;> omega

/-- What is pending for an operation is carried out at once. -/
theorem Attends.executeDue {acts : Bool} (h : e.Attends settings t d) (ht : t.IsDeed)
    (hoperations : e.operations = if acts then [⟨t, 0⟩] else []) :
    ∃ e' d', e.executeDue = e' ∧ e'.Attends settings t d' ∧ d.Later d' ∧ e'.input = e.input ∧
      e'.commands = (if acts then e.commands.push t else e.commands) ∧ e'.operations = [] ∧
      e'.currentGoal = none := by
  cases acts with
  | false =>
    have hdue : PendingOperation.due e.operations = [] ∧
        PendingOperation.tick e.operations = [] := by
      rw [hoperations]
      exact ⟨rfl, rfl⟩
    simp only [Engine.executeDue, hdue.1, hdue.2]
    exact ⟨_, d, rfl, ⟨h.settings_eq, h.room, h.events, h.quiet, h.desires, h.acted, h.ids⟩,
      ⟨d.ids.isBefore_refl, Nat.le_add_right _ _, rfl⟩, rfl, rfl, rfl, rfl⟩
  | true =>
    have hdue : PendingOperation.due e.operations = [t] ∧
        PendingOperation.tick e.operations = [] := by
      rw [hoperations]
      exact ⟨rfl, rfl⟩
    simp only [Engine.executeDue, hdue.1, hdue.2, List.foldl_cons, List.foldl_nil]
    have h₁ : Attends settings t d { e with operations := [], currentGoal := none } :=
      ⟨h.settings_eq, h.room, h.events, h.quiet, h.desires, h.acted, h.ids⟩
    obtain ⟨e', d', he', h', hlater, hinput, hcommands, hoperations', hcurrent⟩ :=
      h₁.execute ht _
    exact ⟨e', d', he', h', hlater, hinput, hcommands, hoperations', hcurrent⟩

/-- With no concepts to consider, the step after a goal has been put in is the processing of this
goal, and of the operations that are due then. -/
theorem Idle.perform_submit_step {text : String} {v : TruthValue Double} (h : e.Idle settings t d)
    (ht : t.IsDeed) (hcalm : settings.considerPerCycle = 0)
    (hparse : Utterance.parse text = .ok ⟨t, .goal v, .eternal⟩) :
    (e.perform (.submit text)).perform .step = (Engine.processGoal
      { e with ids := e.ids.advance, cycle := e.cycle + 1 } (wish t v e.ids.peek)).executeDue := by
  have hsubmit : e.perform (.submit text) =
      Engine.enqueue { e with ids := e.ids.advance } (wish t v e.ids.peek) inputPriority := by
    have hok : e.submit text = .ok (e.ids.peek, Engine.enqueue { e with ids := e.ids.advance }
        (wish t v e.ids.peek) inputPriority) :=
      submit_eq_ok.2 ⟨.fresh t (.goal v) e.ids.peek none, e.ids.advance,
        Sentence.parse_eq_ok.2 ⟨_, _, hparse, rfl, rfl, rfl⟩, rfl, rfl⟩
    simp only [perform, hok]
  -- The sentence that is read is the only one in the buffer, so the step takes it out again.
  have hput : (e.input.put (wish t v e.ids.peek) inputPriority).2 = { e.input with
      entries := [(PriorityQueue.rank inputPriority, wish t v e.ids.peek)] } := by
    have hroom := h.attends.room
    simp only [PriorityQueue.put, h.input, PriorityQueue.insertByRank, List.length_singleton]
    rw [if_neg (by omega)]
  have hempty : ({ e.input with entries := [] } : PriorityQueue Sentence) = e.input := by
    rw [← h.input]
  have hsettings : e.settings.considerPerCycle = 0 := by
    rw [h.attends.settings_eq, hcalm]
  have hplain : (wish t v e.ids.peek).statement.mentionsVariable = false := ht.plain
  have hkind : (wish t v e.ids.peek).punctuation = .goal := rfl
  show Engine.step (e.perform (.submit text)) = _
  rw [hsubmit]
  simp only [Engine.enqueue, hput, step, hsettings, considerSome, PriorityQueue.size,
    List.length_singleton, processWaiting, PriorityQueue.take?, hempty, process, hplain,
    Bool.false_eq_true, if_false, hkind]

/-- Putting a goal in and running a cycle is a turn at the desk. -/
theorem Idle.turn {text : String} {v : TruthValue Double} (h : e.Idle settings t d)
    (ht : t.IsDeed) (hcalm : settings.considerPerCycle = 0)
    (hparse : Utterance.parse text = .ok ⟨t, .goal v, .eternal⟩) :
    ∃ p e' d', p.settings = settings ∧ (e.perform (.submit text)).perform .step = e' ∧
      (d.turn p t v).2.Later d' ∧ e'.Idle settings t d' ∧
      e'.commands = if (d.turn p t v).1 then e.commands.push t else e.commands := by
  -- Reading the sentence has used up one identity, and the cycle is not looked at.
  have h₁ : Attends settings t { d with ids := d.ids.advance }
      { e with ids := e.ids.advance, cycle := e.cycle + 1 } :=
    ⟨h.attends.settings_eq, h.attends.room, h.attends.events, h.attends.quiet, h.attends.desires,
      h.attends.acted, congrArg IdSupply.advance h.attends.ids⟩
  obtain ⟨e₂, he₂, h₂, _, hinput, hcommands, hoperations⟩ := h₁.processGoal
    (s := wish t v e.ids.peek) ht rfl h.operations h.currentGoal
  obtain ⟨e₃, d', he₃, h₃, hlater, hinput', hcommands', hoperations', hcurrent⟩ :=
    h₂.executeDue ht hoperations
  rw [h.attends.ids] at hlater hcommands'
  refine ⟨_, e₃, d', h.attends.settings_eq, ?_, hlater, ⟨h₃, ?_, hoperations', hcurrent⟩, ?_⟩
  · rw [h.perform_submit_step ht hcalm hparse, he₂, he₃]
  · rw [hinput', hinput]
    exact h.input
  · rw [hcommands', hcommands]
    rfl

end Draws

end Engine

/-! ## Runs -/

/-- Whether a goal is wanted enough to be acted on after it has been put in again `n` times. -/
def Settings.Desires (settings : Settings) (v : TruthValue Double) (n : Nat) : Prop :=
  settings.decisionThreshold < (v.pooled settings.horizon n).expectation

instance (settings : Settings) (v : TruthValue Double) (n : Nat) :
    Decidable (settings.Desires v n) := inferInstanceAs (Decidable (_ < _))

/-- What has become of a desk after a number of turns, and what has been carried out by then. -/
inductive Course (settings : Settings) (t : Term) (v : TruthValue Double) :
    Nat → Desk → Array Term → Prop where
  /-- No goal has been put in. -/
  | new : Course settings t v 0 (.new settings.tableCapacity) #[]
  /-- Each goal has been acted on. -/
  | pooled {n : Nat} {d : Desk} (few : n < 16) (wanted : ∀ i ≤ n, settings.Desires v i)
      (pooled : d.Pooled settings.horizon t v n) :
      Course settings t v (n + 1) d (.replicate (n + 1) t)
  /-- The first sixteen goals have been acted on, and no others. -/
  | stuck {n : Nat} {d : Desk} (many : 16 ≤ n) (wanted : ∀ i < 16, settings.Desires v i)
      (stuck : d.Stuck t) : Course settings t v (n + 1) d (.replicate 16 t)
  /-- One of the first sixteen goals was not wanted enough. -/
  | passed {n i : Nat} {d : Desk} {commands : Array Term} (early : i < 16) (before : i < n)
      (unwanted : ¬settings.Desires v i) (fewer : commands.size < n) :
      Course settings t v n d commands

namespace Course

variable {settings : Settings} {t : Term} {v : TruthValue Double} {n : Nat} {d d' : Desk}
  {commands : Array Term} {p : Standpoint}

/-- Every turn continues the course. -/
theorem turn (h : Course settings t v n d commands) (hstatement : t.isStatement = true)
    (hp : p.settings = settings) (hlater : (d.turn p t v).2.Later d') :
    Course settings t v (n + 1) d'
      (if (d.turn p t v).1 then commands.push t else commands) := by
  subst hp
  -- A first goal is pooled if it is wanted at all. A pooled one is joined by the next as long as
  -- the base has room, and stuck from then on. What is stuck or was passed over once stays so.
  cases h with
  | new =>
    by_cases hwant : p.settings.Desires v 0
    · obtain ⟨d₁, hturn, hpooled⟩ := Desk.turn_new (p := p) (t := t) (v := v)
        (k := p.settings.horizon) p.settings.tableCapacity hwant
      rw [hturn] at hlater ⊢
      refine .pooled (by omega) ?_ (hpooled d' hlater)
      intro i hi
      obtain rfl : i = 0 := by omega
      exact hwant
    · rw [Desk.turn_new_unwanted (v := v) _ hwant]
      exact .passed (by omega) Nat.zero_lt_one hwant Nat.zero_lt_one
  | @pooled n d few wanted pooled =>
    -- Fifteen are pooled: the base is full with the next one.
    by_cases hlast : n = 15
    · subst hlast
      obtain ⟨d₁, hturn, hstuck⟩ := pooled.stuck_turn (p := p) hstatement
      rw [hturn] at hlater ⊢
      exact .stuck (by omega) (fun i hi => wanted i (by omega)) (hstuck.later hlater)
    · by_cases hwant : p.settings.Desires v (n + 1)
      · obtain ⟨d₁, hturn, hpooled⟩ := pooled.turn hstatement (by omega) hwant
        rw [hturn] at hlater ⊢
        simp only [if_true, ← Array.replicate_succ]
        refine .pooled (by omega) ?_ (hpooled d' hlater)
        intro i hi
        rcases Nat.lt_or_ge i (n + 1) with hi' | hi'
        · exact wanted i (by omega)
        · obtain rfl : i = n + 1 := by omega
          exact hwant
      · rw [pooled.turn_unwanted hstatement hwant]
        refine .passed (i := n + 1) (by omega) (by omega) hwant ?_
        simp
  | stuck many wanted stuck =>
    obtain ⟨d₁, hturn, hstuck⟩ := stuck.turn (p := p) (v := v) hstatement
    rw [hturn] at hlater ⊢
    exact .stuck (by omega) wanted (hstuck.later hlater)
  | passed early before unwanted fewer =>
    refine .passed early (by omega) unwanted ?_
    split
    · rw [Array.size_push]
      omega
    · omega

/-- As many commands as goals mean that there are at most sixteen, each wanted enough. -/
theorem size_eq_iff (h : Course settings t v n d commands) :
    commands.size = n ↔ n ≤ 16 ∧ ∀ i < n, settings.Desires v i := by
  cases h with
  | new => simp
  | pooled few wanted =>
    rw [Array.size_replicate]
    exact ⟨fun _ => ⟨by omega, fun i hi => wanted i (by omega)⟩, fun _ => rfl⟩
  | stuck many =>
    rw [Array.size_replicate]
    exact ⟨fun h => by omega, fun h => by omega⟩
  | passed early before unwanted fewer =>
    exact ⟨fun h => by omega, fun h => absurd (h.2 _ before) unwanted⟩

/-- With every goal wanted enough, the first sixteen are acted on. -/
theorem eq_replicate (h : Course settings t v n d commands)
    (hwanted : ∀ i < 16, settings.Desires v i) : commands = .replicate (min n 16) t := by
  cases h with
  | new => rfl
  | pooled few => rw [Nat.min_eq_left (by omega)]
  | stuck many => rw [Nat.min_eq_right (by omega)]
  | passed early before unwanted => exact absurd (hwanted _ early) unwanted

end Course

namespace Engine

variable {σ : Type} [DrawSource σ] {settings : Settings} {t : Term} {v : TruthValue Double}
  {text name : String}

/-- A text that is put in over and over, with a cycle run each time. -/
def resubmissions (text : String) : (n : Nat) → List Instruction
  | 0 => []
  | n + 1 => resubmissions text n ++ [.submit text, .step]

theorem course_resubmissions (ht : t.IsDeed) (hcalm : settings.considerPerCycle = 0)
    (hparse : Utterance.parse text = .ok ⟨t, .goal v, .eternal⟩) (draws : σ) (n : Nat) :
    ∃ d, (after settings draws (resubmissions text n)).Idle settings t d ∧
      Course settings t v n d (after settings draws (resubmissions text n)).commands := by
  induction n with
  | zero => exact ⟨_, idle_start settings t draws, .new⟩
  | succ n ih =>
    obtain ⟨d, hidle, hcourse⟩ := ih
    obtain ⟨p, e', d', hp, he', hlater, hidle', hcommands⟩ := hidle.turn ht hcalm hparse
    have hafter : after settings draws (resubmissions text (n + 1)) = e' := by
      rw [← he']
      simp only [resubmissions, after, List.foldl_append, List.foldl_cons, List.foldl_nil]
    rw [hafter]
    refine ⟨d', hidle', ?_⟩
    rw [hcommands]
    exact hcourse.turn ht.isStatement hp hlater

/-- **Main theorem.** A timeless goal for an operation that is put in `n` times, with a cycle run
each time, is acted on every time if and only if it is put in at most 16 times and is wanted
enough each time. If it is wanted enough for 16 times, it is acted on these times and no more. -/
theorem carriesOut_iff (hcalm : settings.considerPerCycle = 0)
    (hname : Term.operation name = .ok t)
    (hparse : Utterance.parse text = .ok ⟨t, .goal v, .eternal⟩) (draws : σ) (n : Nat) :
    ((after settings draws (resubmissions text n)).commands.size = n ↔
      n ≤ 16 ∧ ∀ i < n, settings.Desires v i) ∧
    ((∀ i < 16, settings.Desires v i) →
      (after settings draws (resubmissions text n)).commands = .replicate (min n 16) t) := by
  obtain ⟨d, _, hcourse⟩ := course_resubmissions (Term.isDeed_operation hname) hcalm hparse draws n
  exact ⟨hcourse.size_eq_iff, hcourse.eq_replicate⟩

/-- With the settings that an engine has by default, a goal that is fully wanted with the usual
confidence is put in 17 times and acted on 16 times. -/
theorem carriesOut_default : ∃ t,
    Term.operation "^go" = .ok t ∧
    Utterance.parse "((*,\x7bSELF\x7d) --> ^go)! %1.0;0.9%" = .ok ⟨t, .goal .default, .eternal⟩ ∧
    (∀ i < 16, Settings.Desires { considerPerCycle := 0 } .default i) ∧
    (after { considerPerCycle := 0 } (Keystream.ofSeed 0)
      (resubmissions "((*,\x7bSELF\x7d) --> ^go)! %1.0;0.9%" 17)).commands = .replicate 16 t := by
  have hwanted : ∀ i < 16, Settings.Desires { considerPerCycle := 0 } .default i := by
    decide +kernel
  have hname : Term.operation "^go" = .ok _ := rfl
  have hparse : Utterance.parse "((*,\x7bSELF\x7d) --> ^go)! %1.0;0.9%" =
    .ok ⟨_, .goal .default, .eternal⟩ := rfl
  exact ⟨_, hname, hparse, hwanted,
    (carriesOut_iff rfl hname hparse (Keystream.ofSeed 0) 17).2 hwanted⟩

end Engine

end NonAxiomatic
