import NonAxiomatic.Proofs.Rebuilding

/-!
# Terms and layouts

How a layout goes into a term. As many intervals are taken from it as the term has
(`Term.rest_takeLayout`), whatever they are. Terms with one text have their intervals at the same
places, so that the layout of one of them gives the other its intervals, place by place
(`Term.timedAs`).

The parts of a term are reached by paths (`Term.node?`) through its components. The dependencies of
a variable belong to the variable and are none: a layout neither lists nor changes their intervals.

**Theorem (`Term.layout_fits`).** The layout of a term fits every term with the same text, and gives
it the intervals of that term at every node. A term takes exactly the lists that are as long as its
own layout.
-/

namespace NonAxiomatic

namespace Term

variable {t u : Term} {ts us : List Term} {connector : Connector} {intervals : List UInt32}

/-! ## How much is taken -/

/-- What is left of a list behind its first `n` elements, when there are that many. -/
def skip? (n : Nat) (values : List UInt32) : Option (List UInt32) :=
  if n ≤ values.length then some (values.drop n) else none

theorem map_snd_splitAt? (n : Nat) (values : List UInt32) :
    (splitAt? n values).map Prod.snd = skip? n values := by
  unfold splitAt? skip?
  split <;> rfl

theorem skip?_add (m n : Nat) (values : List UInt32) :
    skip? (m + n) values = (skip? m values).bind (skip? n) := by
  unfold skip?
  by_cases hm : m ≤ values.length
  · have hn : n ≤ (values.drop m).length ↔ m + n ≤ values.length := by
      rw [List.length_drop]
      omega
    simp only [if_pos hm, Option.bind_some, hn, List.drop_drop]
  · rw [if_neg hm, if_neg (by omega)]
    rfl

theorem skip?_succ_cons (n : Nat) (value : UInt32) (values : List UInt32) :
    skip? (n + 1) (value :: values) = skip? n values := by
  simp only [skip?, List.length_cons, Nat.add_le_add_iff_right, List.drop_succ_cons]

/-- What is left when something is taken twice. -/
theorem map_snd_bind {α β γ : Type} (x : Option (α × List UInt32))
    (y : List UInt32 → Option (β × List UInt32)) (f : α → β → γ) :
    (x.bind fun a => (y a.2).bind fun b => some (f a.1 b.1, b.2)).map Prod.snd =
      (x.map Prod.snd).bind fun values => (y values).map Prod.snd := by
  rw [Option.map_bind, Option.bind_map]
  refine congrArg _ (funext fun a => ?_)
  show ((y a.2).bind fun b => some (f a.1 b.1, b.2)).map Prod.snd = (y a.2).map Prod.snd
  rw [Option.map_bind]
  exact Option.map_eq_bind.symm

mutual

/-- A term takes as many intervals as it has. -/
theorem rest_takeLayout : (t : Term) → (values : List UInt32) →
    (t.takeLayout values).map Prod.snd = skip? t.layout.length values
  | atom _, _ | var .., _ => rfl
  | compound connector operands intervals, values => by
    refine (map_snd_bind (splitAt? intervals.length values) (takeLayouts operands)
      fun own operands => compose connector operands own).trans ?_
    rw [map_snd_splitAt?, funext (rest_takeLayouts operands), ← skip?_add, layout,
      List.length_append]
  | statement .., [] => rfl
  | statement subject copula predicate _, interval :: values => by
    refine (map_snd_bind (subject.takeLayout values) predicate.takeLayout
      fun subject predicate => relate subject copula predicate interval).trans ?_
    rw [rest_takeLayout subject, funext (rest_takeLayout predicate), ← skip?_add, layout,
      List.cons_append, List.length_cons, List.length_append, skip?_succ_cons]

theorem rest_takeLayouts : (ts : List Term) → (values : List UInt32) →
    (takeLayouts ts values).map Prod.snd = skip? (layouts ts).length values
  | [], _ => rfl
  | t :: ts, values => by
    refine (map_snd_bind (t.takeLayout values) (takeLayouts ts) List.cons).trans ?_
    rw [rest_takeLayout t, funext (rest_takeLayouts ts), ← skip?_add, layouts, List.length_append]

end

theorem isSome_withLayout?_iff (t : Term) (values : List UInt32) :
    (t.withLayout? values).isSome = true ↔ values.length = t.layout.length := by
  have hrest := rest_takeLayout t values
  have hnone : (t.withLayout? values).isSome = true ↔
      (t.takeLayout values).map Prod.snd = some [] := by
    unfold withLayout?
    rcases t.takeLayout values with _ | ⟨u, _ | _⟩ <;> simp
  rw [hnone, hrest, skip?]
  split
  · rw [Option.some.injEq, List.drop_eq_nil_iff]
    omega
  · simp only [reduceCtorEq, false_iff]
    omega

/-! ## The intervals of another term -/

mutual

/-- The term with the intervals of another one that has them at the same places. -/
def timedAs : Term → Term → Term
  | compound connector operands _, compound _ others intervals =>
    compound connector (timedAsAll operands others) intervals
  | statement subject copula predicate _, statement subject' _ predicate' interval =>
    statement (subject.timedAs subject') copula (predicate.timedAs predicate') interval
  | t, _ => t

/-- Several terms with the intervals of others. -/
def timedAsAll : List Term → List Term → List Term
  | t :: ts, u :: us => t.timedAs u :: timedAsAll ts us
  | ts, _ => ts

end

mutual

/-- Only intervals change. -/
theorem timeless_timedAs : (t u : Term) → (t.timedAs u).timeless = t.timeless
  | atom _, _ | var .., _ => by rw [timedAs] <;> simp
  | compound connector operands _, u => by
    cases u with
    | compound connector' others intervals =>
      rw [timedAs, timeless, timeless, skeleton, skeleton, timeless_timedAsAll operands others]
    | _ => rfl
  | statement subject copula predicate _, u => by
    cases u with
    | statement subject' copula' predicate' interval =>
      have hsubject := timeless_timedAs subject subject'
      have hpredicate := timeless_timedAs predicate predicate'
      rw [timeless, timeless] at hsubject hpredicate
      rw [timedAs, timeless, timeless, skeleton, skeleton, hsubject, hpredicate]
    | _ => rfl

theorem timeless_timedAsAll : (ts us : List Term) →
    skeletons id (timedAsAll ts us) = skeletons id ts
  | [], _ => rfl
  | _ :: _, [] => rfl
  | t :: ts, u :: us => by
    rw [timedAsAll, skeletons, skeletons, timeless_timedAsAll ts us]
    exact congrArg (· :: _) (timeless_timedAs t u)

end

theorem text_timedAs (t u : Term) : (t.timedAs u).text = t.text := by
  rw [← text_timeless, timeless_timedAs, text_timeless]

theorem map_text_timedAsAll (ts us : List Term) :
    (timedAsAll ts us).map text = ts.map text := by
  have hshown : ∀ kind : VariableKind, (id kind).symbol = kind.symbol := fun _ => rfl
  rw [← texts_eq_map, ← texts_eq_map, ← texts_skeletons hshown, timeless_timedAsAll,
    texts_skeletons hshown]

theorem length_timedAsAll (ts us : List Term) : (timedAsAll ts us).length = ts.length := by
  simpa using congrArg List.length (map_text_timedAsAll ts us)

/-! ## Building with other intervals -/

/-- What the constructors see to in a compound that was built. -/
structure Arranged (connector : Connector) (operands : List Term) (intervals : List UInt32) :
    Prop where
  single : connector.isSet = true → operands.length ≤ 1
  sorted : connector.isOrderInvariant = true → operands.Pairwise fun s t => precedes s t
  fitted : fitIntervals connector operands intervals = intervals
  all : ∀ t ∈ operands, t.Built

theorem Built.arranged (h : (Term.compound connector ts intervals).Built) :
    Arranged connector ts intervals := by
  obtain ⟨us, hus, heq⟩ := build_compound_eq_ok.1 h.build_eq
  have hbuilt := built_of_buildAll ts hus
  unfold Term.compose composeFlat at heq
  split at heq
  · rename_i hset
    -- What a set of several elements is built as is no set.
    obtain ⟨hconnector, -⟩ := compound.inj heq
    have hjoined : connector.joined.isSet = false := by
      cases connector <;> rfl
    rw [← hconnector] at hjoined
    simp [hjoined] at hset
  · rename_i hfew
    have hsingle : connector.isSet = true → us.length ≤ 1 := by
      intro hset
      simp only [hset, Bool.true_and, decide_eq_true_eq] at hfew
      omega
    obtain ⟨-, hts, hintervals⟩ := compound.inj heq
    split at hts
    · subst hts
      refine ⟨?_, ?_, ?_, ?_⟩
      · rwa [length_stableSort]
      · exact fun _ => pairwise_stableSort precedes_trans precedes_total us
      · rw [hintervals, fitIntervals_fitIntervals (length_stableSort precedes us)]
      · exact fun t ht => hbuilt t (mem_stableSort.1 ht)
    · subst hts
      refine ⟨hsingle, fun hinvariant => absurd hinvariant ‹_›, ?_, hbuilt⟩
      rw [hintervals, fitIntervals_fitIntervals rfl]

theorem Built.sides {subject predicate : Term} {copula : Copula} {interval : UInt32}
    (h : (statement subject copula predicate interval).Built) :
    subject.Built ∧ predicate.Built ∧
      (copula.isSymmetric = true → ¬predicate.text < subject.text) := by
  obtain ⟨s, p, hs, hp, heq⟩ := build_statement_eq_ok.1 h.build_eq
  unfold Term.relate at heq
  split at heq
  · rename_i hswap
    obtain ⟨rfl, -, rfl, -⟩ := statement.inj heq
    simp only [Bool.and_eq_true, decide_eq_true_eq] at hswap
    exact ⟨built_of_build predicate hp, built_of_build subject hs, fun _ => String.lt_asymm hswap.2⟩
  · rename_i hkeep
    obtain ⟨rfl, -, rfl, -⟩ := statement.inj heq
    refine ⟨built_of_build subject hs, built_of_build predicate hp, fun hsymmetric hlt => hkeep ?_⟩
    simp [hsymmetric, hlt]

theorem fitIntervals_congr (h : ts.length = us.length) (intervals : List UInt32) :
    fitIntervals connector ts intervals = fitIntervals connector us intervals := by
  cases connector <;> simp only [fitIntervals, h]

/-- A compound that was built is built again with operands of the same texts, and with intervals
that another such compound has. -/
theorem Arranged.compose_eq {others : List UInt32} (ht : Arranged connector ts intervals)
    (hu : Arranged connector us others) {ts' : List Term} (htexts : ts'.map text = ts.map text)
    (hlength : ts'.length = us.length) :
    compose connector ts' others = compound connector ts' others := by
  have hsame : ts'.length = ts.length := by
    simpa using congrArg List.length htexts
  rw [compose_eq_compound (by rw [hsame]; exact ht.single)
    (fun hinvariant => (pairwise_precedes_congr htexts).2 (ht.sorted hinvariant)),
    fitIntervals_congr hlength, hu.fitted]

mutual

/-- A layout is taken by a term with the same text, which then has the intervals of the other. -/
theorem takeLayout_layout : (t u : Term) → t.Built → u.Built → t.untagged = u.untagged →
    ∀ rest, t.takeLayout (u.layout ++ rest) = some (t.timedAs u, rest)
  | atom _, u, _, _, h, rest => by
    cases u with
    | atom => rfl
    | _ => simp [untagged, skeleton] at h
  | var .., u, _, _, h, rest => by
    cases u with
    | var => rfl
    | _ => simp [untagged, skeleton] at h
  | compound connector ts intervals, u, ht, hu, h, rest => by
    cases u with
    | compound connector' us others =>
      simp only [untagged, skeleton, compound.injEq, and_true] at h
      obtain ⟨rfl, hoperands⟩ := h
      have harranged := ht.arranged
      have harranged' := hu.arranged
      have hlength : ts.length = us.length := by
        simpa [skeletons_eq_map] using congrArg List.length hoperands
      have hfits : others.length = intervals.length := by
        rw [← harranged'.fitted, ← harranged.fitted, fitIntervals_congr hlength,
          length_fitIntervals rfl]
      have hsplit : splitAt? intervals.length (others ++ (layouts us ++ rest)) =
          some (others, layouts us ++ rest) := by
        simp [splitAt?, ← hfits]
      have hparts := takeLayouts_layouts ts us harranged.all harranged'.all hoperands rest
      simp only [layout, List.append_assoc, takeLayout, hsplit, hparts, bind, Option.bind, pure,
        timedAs]
      rw [harranged.compose_eq harranged' (map_text_timedAsAll ts us)
        ((length_timedAsAll ts us).trans hlength)]
    | _ => simp [untagged, skeleton] at h
  | statement subject copula predicate _, u, ht, hu, h, rest => by
    cases u with
    | statement subject' copula' predicate' interval =>
      simp only [untagged, skeleton, statement.injEq, and_true] at h
      obtain ⟨hsubject, rfl, hpredicate⟩ := h
      obtain ⟨hs, hp, hsorted⟩ := ht.sides
      obtain ⟨hs', hp', -⟩ := hu.sides
      simp only [layout, List.cons_append, List.append_assoc, takeLayout,
        takeLayout_layout subject subject' hs hs' hsubject,
        takeLayout_layout predicate predicate' hp hp' hpredicate, bind, Option.bind, pure, timedAs]
      rw [relate_eq_statement (by rwa [text_timedAs, text_timedAs])]
    | _ => simp [untagged, skeleton] at h

theorem takeLayouts_layouts : (ts us : List Term) → (∀ t ∈ ts, t.Built) → (∀ u ∈ us, u.Built) →
    skeletons untag ts = skeletons untag us →
    ∀ rest, takeLayouts ts (layouts us ++ rest) = some (timedAsAll ts us, rest)
  | [], [], _, _, _, _ => rfl
  | [], _ :: _, _, _, h, _ => absurd h (by simp [skeletons])
  | _ :: _, [], _, _, h, _ => absurd h (by simp [skeletons])
  | t :: ts, u :: us, hts, hus, h, rest => by
    obtain ⟨ht, hts⟩ := List.forall_mem_cons.1 hts
    obtain ⟨hu, hus⟩ := List.forall_mem_cons.1 hus
    obtain ⟨hfirst, hothers⟩ := List.cons.inj h
    simp only [layouts, List.append_assoc, takeLayouts, takeLayout_layout t u ht hu hfirst,
      takeLayouts_layouts ts us hts hus hothers, bind, Option.bind, pure, timedAsAll]

end

/-! ## Node by node -/

/-- What stands at the top of a term, but for its intervals. The dependencies of a variable belong
to it. -/
inductive Head where
  | name (name : String)
  | variable (kind : VariableKind) (name : String) (dependencies : List Term)
  | connector (connector : Connector)
  | copula (copula : Copula)

/-- The top of a term. -/
def head : Term → Head
  | atom name => .name name
  | var kind name dependencies => .variable kind name dependencies
  | compound connector _ _ => .connector connector
  | statement _ copula _ _ => .copula copula

/-- The intervals at the top of a term. -/
def ownIntervals : Term → List UInt32
  | atom _ | var .. => []
  | compound _ _ intervals => intervals
  | statement _ _ _ interval => [interval]

/-- The part of a term that a path through components leads to. -/
def node? : (path : List Nat) → Term → Option Term
  | [], t => some t
  | i :: path, t => t.components[i]?.bind (node? path)

theorem head_timedAs (t u : Term) : (t.timedAs u).head = t.head := by
  cases t <;> cases u <;> rfl

theorem ownIntervals_timedAs (h : t.untagged = u.untagged) :
    (t.timedAs u).ownIntervals = u.ownIntervals := by
  cases t <;> cases u <;> first | rfl | simp [untagged, skeleton] at h

theorem skeletons_components (h : t.untagged = u.untagged) :
    skeletons untag t.components = skeletons untag u.components := by
  cases t <;> cases u <;> simp_all [untagged, skeleton, components, skeletons]

theorem components_timedAs (h : t.untagged = u.untagged) :
    (t.timedAs u).components = timedAsAll t.components u.components := by
  cases t <;> cases u <;> first | rfl | simp [untagged, skeleton] at h

theorem timedAsAll_eq_zipWith (h : ts.length = us.length) :
    timedAsAll ts us = List.zipWith timedAs ts us := by
  induction ts generalizing us with
  | nil =>
    obtain rfl := List.length_eq_zero_iff.1 h.symm
    rfl
  | cons t ts ih =>
    cases us with
    | nil => simp at h
    | cons u us => rw [timedAsAll, List.zipWith_cons_cons, ih (by simpa using h)]

/-- Terms with one text have components at the same places, each with one text. -/
theorem components_cases (h : t.untagged = u.untagged) (i : Nat) :
    ((t.timedAs u).components[i]? = none ∧ t.components[i]? = none ∧ u.components[i]? = none) ∨
      ∃ x y, (t.timedAs u).components[i]? = some (x.timedAs y) ∧ t.components[i]? = some x ∧
        u.components[i]? = some y ∧ x.untagged = y.untagged := by
  have hskeletons := skeletons_components h
  rw [skeletons_eq_map, skeletons_eq_map] at hskeletons
  have hlength : t.components.length = u.components.length := by
    simpa using congrArg List.length hskeletons
  rw [components_timedAs h, timedAsAll_eq_zipWith hlength, List.getElem?_zipWith]
  have hplace := congrArg (fun xs => xs[i]?) hskeletons
  simp only [List.getElem?_map] at hplace
  cases ht : t.components[i]? with
  | none =>
    rw [ht] at hplace
    exact .inl ⟨rfl, rfl, by simpa using hplace.symm⟩
  | some x =>
    rw [ht, Option.map_some] at hplace
    obtain ⟨y, hy, hxy⟩ := Option.map_eq_some_iff.1 hplace.symm
    exact .inr ⟨x, y, by rw [hy], rfl, hy, hxy.symm⟩

theorem node?_timedAs (h : t.untagged = u.untagged) (path : List Nat) :
    (node? path (t.timedAs u)).map head = (node? path t).map head ∧
      (node? path (t.timedAs u)).map ownIntervals = (node? path u).map ownIntervals := by
  induction path generalizing t u with
  | nil => exact ⟨congrArg some (head_timedAs t u), congrArg some (ownIntervals_timedAs h)⟩
  | cons i path ih =>
    rw [node?, node?, node?]
    obtain ⟨hnone, ht, hu⟩ | ⟨x, y, hsome, ht, hu, hxy⟩ := components_cases h i
    · rw [hnone, ht, hu]
      exact ⟨rfl, rfl⟩
    · rw [hsome, ht, hu]
      exact ih hxy

/-- **Main theorem.** The layout of a term that was built fits every such term with the same text,
and gives it the intervals of that term at every node, and nothing else. A term takes just those
lists that are as long as its layout. -/
theorem layout_fits :
    (∀ {t u : Term}, t.Built → u.Built → t.text = u.text →
      ∃ r, t.withLayout? u.layout = some r ∧ ∀ path,
        (node? path r).map head = (node? path t).map head ∧
          (node? path r).map ownIntervals = (node? path u).map ownIntervals) ∧
      ∀ (t : Term) (values : List UInt32),
        (t.withLayout? values).isSome = true ↔ values.length = t.layout.length := by
  refine ⟨fun {t u} ht hu htext => ?_, isSome_withLayout?_iff⟩
  have hsame := (text_eq_iff ht.named hu.named).1 htext
  refine ⟨t.timedAs u, ?_, node?_timedAs hsame⟩
  have htake := takeLayout_layout t u ht hu hsame []
  rw [List.append_nil] at htake
  rw [withLayout?, htake]

/-- Two operands with one text have intervals of their own. -/
theorem layout_fits_repeated :
    let operand (interval : UInt32) := relate (atom "a") .predictiveImplication (atom "b") interval
    let t := compose .conjunction [operand 0, operand 0] []
    let u := compose .conjunction [operand 3, operand 7] []
    t.Built ∧ u.Built ∧ t.text = u.text ∧ u.layout = [3, 7] ∧
      (∃ r, t.withLayout? u.layout = some r ∧ (node? [0] r).map ownIntervals = some [3] ∧
        (node? [1] r).map ownIntervals = some [7]) ∧ (t.withLayout? [3]).isSome = false := by
  intro operand t u
  have hname : ∀ name, ofName name = .ok (atom name) → (atom name).Built := fun _ => .ofName
  have hoperand : ∀ interval, (operand interval).Built :=
    fun interval => .relate (hname "a" rfl) (hname "b" rfl)
  have ht : t.Built := .compose (by simp [hoperand])
  have hu : u.Built := .compose (by simp [hoperand])
  have htext : t.text = u.text := by decide +kernel
  obtain ⟨hfits, hlength⟩ := layout_fits
  obtain ⟨r, hr, hnodes⟩ := hfits ht hu htext
  have hfirst : (node? [0] r).map ownIntervals = some [3] :=
    (hnodes [0]).2.trans (by decide +kernel)
  have hsecond : (node? [1] r).map ownIntervals = some [7] :=
    (hnodes [1]).2.trans (by decide +kernel)
  have hshort : ¬(t.withLayout? [3]).isSome = true := by
    rw [hlength]
    exact Nat.ne_of_lt (by decide)
  exact ⟨ht, hu, htext, by decide +kernel, ⟨r, hr, hfirst, hsecond⟩, by simpa using hshort⟩

end Term

end NonAxiomatic
