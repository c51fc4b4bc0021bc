import Mathlib.Data.List.Perm.Basic
import NonAxiomatic.Proofs.Identity
import NonAxiomatic.Proofs.RoundTrip

/-!
# Building again

A term can be read as a plan: its constructors, called one after the other, build a term
(`Term.build`). A term that was built is its own plan, and plans that differ in the order of what
may change places (`Term.Permuted`) build terms with one text.

**Theorem (`Term.text_identifies`).** The text of a term is its identity: two terms that were built
have one text exactly if they are the same tree, up to what is not written; and the order in which a
plan names operands that may change places does not matter for it.
-/

namespace NonAxiomatic

namespace Term

/-! ## Terms that are built -/

/-- The terms that the constructors build. -/
inductive Built : Term → Prop where
  | ofName {name : String} {t : Term} (h : ofName name = .ok t) : Built t
  | ofVariable {kind : VariableKind} {name : String} {dependencies : List Term} {t : Term}
      (all : ∀ d ∈ dependencies, Built d) (h : ofVariable kind name dependencies = .ok t) : Built t
  | compose {connector : Connector} {operands : List Term} {intervals : List UInt32}
      (all : ∀ t ∈ operands, Built t) : Built (compose connector operands intervals)
  | relate {subject : Term} {copula : Copula} {predicate : Term} {interval : UInt32}
      (left : Built subject) (right : Built predicate) :
      Built (relate subject copula predicate interval)

theorem Built.named {t : Term} (h : t.Built) : t.Named := by
  induction h with
  | ofName h =>
    obtain ⟨rfl, nonempty, characters⟩ := ofName_eq_ok.1 h
    exact .atom nonempty characters
  | ofVariable _ h ih =>
    obtain ⟨rfl, nonempty, characters⟩ := ofVariable_eq_ok.1 h
    exact .var nonempty characters ih
  | compose _ ih => exact named_compose ih _
  | relate _ _ ihs ihp => exact named_relate ihs ihp _ _

mutual

/-- What the constructors make of a term, from the innermost parts on. -/
def build : Term → Except SyntaxError Term
  | atom name => ofName name
  | var kind name dependencies => do
    let dependencies ← buildAll dependencies
    ofVariable kind name dependencies
  | compound connector operands intervals => do
    let operands ← buildAll operands
    return compose connector operands intervals
  | statement subject copula predicate interval => do
    let subject ← subject.build
    let predicate ← predicate.build
    return relate subject copula predicate interval

/-- What they make of several terms. -/
def buildAll : List Term → Except SyntaxError (List Term)
  | [] => .ok []
  | t :: ts => do
    let t ← t.build
    let ts ← buildAll ts
    return t :: ts

end

variable {p q t u : Term} {ps ts us : List Term} {connector : Connector}
  {intervals : List UInt32}

theorem buildAll_cons_eq_ok : buildAll (p :: ps) = .ok ts ↔
    ∃ u us, p.build = .ok u ∧ buildAll ps = .ok us ∧ ts = u :: us := by
  simp only [buildAll, bind_eq_ok, pure, Except.pure, Except.ok.injEq, eq_comm (b := ts),
    exists_and_left]

theorem buildAll_eq_ok :
    buildAll ps = .ok ts ↔ List.Forall₂ (fun p t => p.build = .ok t) ps ts := by
  induction ps generalizing ts with
  | nil =>
    rw [List.forall₂_nil_left_iff]
    constructor
    · intro h
      exact (Except.ok.inj h).symm
    · rintro rfl
      rfl
  | cons p ps ih =>
    rw [buildAll_cons_eq_ok, List.forall₂_cons_left_iff]
    simp only [ih, exists_and_left]

theorem build_compound_eq_ok : (compound connector ps intervals).build = .ok t ↔
    ∃ ts, buildAll ps = .ok ts ∧ t = compose connector ts intervals := by
  simp only [build, bind_eq_ok, pure, Except.pure, Except.ok.injEq, eq_comm (b := t)]

theorem build_statement_eq_ok {copula : Copula} {interval : UInt32} :
    (statement p copula q interval).build = .ok t ↔
      ∃ s u, p.build = .ok s ∧ q.build = .ok u ∧ t = relate s copula u interval := by
  simp only [build, bind_eq_ok, pure, Except.pure, Except.ok.injEq, eq_comm (b := t),
    exists_and_left]

theorem build_var_eq_ok {kind : VariableKind} {name : String} :
    (var kind name ps).build = .ok t ↔
      ∃ ts, buildAll ps = .ok ts ∧ ofVariable kind name ts = .ok t := by
  simp only [build, bind_eq_ok]

theorem buildAll_of_forall (h : ∀ t ∈ ts, t.build = .ok t) : buildAll ts = .ok ts := by
  rw [buildAll_eq_ok, List.forall₂_same]
  exact h

theorem build_composeFlat (h : ∀ t ∈ ts, t.build = .ok t)
    (single : connector.isSet = true → ts.length ≤ 1) (intervals : List UInt32) :
    (composeFlat connector ts intervals).build = .ok (composeFlat connector ts intervals) := by
  unfold composeFlat
  rw [build_compound_eq_ok]
  split
  · rename_i hinvariant
    refine ⟨_, buildAll_of_forall fun t ht => h t (mem_stableSort.1 ht), ?_⟩
    rw [compose_eq_compound (by rwa [length_stableSort])
      (fun _ => pairwise_stableSort precedes_trans precedes_total ts),
      fitIntervals_fitIntervals (length_stableSort precedes ts)]
  · rename_i hfixed
    refine ⟨_, buildAll_of_forall h, ?_⟩
    rw [compose_eq_compound single (fun hinvariant => absurd hinvariant hfixed),
      fitIntervals_fitIntervals rfl]

/-- A term that was built is built again from itself. -/
theorem Built.build_eq (h : t.Built) : t.build = .ok t := by
  induction h with
  | ofName h =>
    obtain ⟨rfl, _⟩ := ofName_eq_ok.1 h
    exact h
  | ofVariable _ h ih =>
    obtain ⟨rfl, _⟩ := ofVariable_eq_ok.1 h
    exact build_var_eq_ok.2 ⟨_, buildAll_of_forall ih, h⟩
  | @compose connector operands intervals _ ih =>
    unfold Term.compose
    -- A set of several elements is the join of its singletons, and each of these builds to itself.
    split
    · have hjoined : connector.joined.isSet = false := by
        cases connector <;> rfl
      refine build_composeFlat (fun t ht => ?_) (fun hset => absurd hset (by simp [hjoined])) []
      obtain ⟨u, hu, rfl⟩ := List.mem_map.1 ht
      have hsingle : ∀ v ∈ [u], v.build = .ok v := by simpa using ih u hu
      exact build_composeFlat hsingle (fun _ => Nat.le_refl 1) []
    · rename_i hfew
      refine build_composeFlat ih (fun hset => ?_) intervals
      simp only [hset, Bool.true_and, decide_eq_true_eq] at hfew
      omega
  | @relate subject copula predicate interval _ _ ihs ihp =>
    unfold Term.relate
    split
    · rename_i hswap
      simp only [Bool.and_eq_true, decide_eq_true_eq] at hswap
      refine build_statement_eq_ok.2 ⟨_, _, ihp, ihs, ?_⟩
      rw [relate_eq_statement fun _ => String.lt_asymm hswap.2]
    · rename_i hkeep
      refine build_statement_eq_ok.2 ⟨_, _, ihs, ihp, ?_⟩
      rw [relate_eq_statement fun hsymmetric hlt => hkeep (by simp [hsymmetric, hlt])]

mutual

theorem built_of_build : (p : Term) → {t : Term} → p.build = .ok t → t.Built
  | atom _, _, h => .ofName h
  | var _ _ dependencies, _, h => by
    obtain ⟨ts, hts, ht⟩ := build_var_eq_ok.1 h
    exact .ofVariable (built_of_buildAll dependencies hts) ht
  | compound _ operands _, _, h => by
    obtain ⟨ts, hts, rfl⟩ := build_compound_eq_ok.1 h
    exact .compose (built_of_buildAll operands hts)
  | statement subject _ predicate _, _, h => by
    obtain ⟨s, u, hs, hu, rfl⟩ := build_statement_eq_ok.1 h
    exact .relate (built_of_build subject hs) (built_of_build predicate hu)

theorem built_of_buildAll : (ps : List Term) → {ts : List Term} → buildAll ps = .ok ts →
    ∀ t ∈ ts, t.Built
  | [], _, h => by
    obtain rfl := Except.ok.inj h
    simp
  | p :: ps, _, h => by
    obtain ⟨u, us, hu, hus, rfl⟩ := buildAll_cons_eq_ok.1 h
    rw [List.forall_mem_cons]
    exact ⟨built_of_build p hu, built_of_buildAll ps hus⟩

end

/-! ## Texts of what is built -/

/-- Operands that may change places are sorted by their texts, so that only these matter. -/
theorem map_text_stableSort (h : (ts.map text).Perm (us.map text)) :
    (stableSort precedes ts).map text = (stableSort precedes us).map text := by
  have hsorted : ∀ xs : List Term, ((stableSort precedes xs).map text).Pairwise (· ≤ ·) := by
    intro xs
    rw [List.pairwise_map]
    refine (pairwise_stableSort precedes_trans precedes_total xs).imp fun hab => ?_
    simpa [precedes] using hab
  have hperm : ((stableSort precedes ts).map text).Perm ((stableSort precedes us).map text) :=
    (((stableSort_perm precedes ts).map text).trans h).trans
      ((stableSort_perm precedes us).map text).symm
  exact hperm.eq_of_pairwise (fun a b _ _ => String.le_antisymm) (hsorted ts) (hsorted us)

/-- Two lists of operands have the same texts, in the same order where it matters. -/
def SameTexts (connector : Connector) (ts us : List Term) : Prop :=
  if connector.isOrderInvariant then (ts.map text).Perm (us.map text)
  else ts.map text = us.map text

theorem sameTexts_of_map_eq (h : ts.map text = us.map text) : SameTexts connector ts us := by
  unfold SameTexts
  split
  · rw [h]
  · exact h

theorem text_composeFlat_congr (h : SameTexts connector ts us) (intervals : List UInt32) :
    (composeFlat connector ts intervals).text = (composeFlat connector us intervals).text := by
  unfold SameTexts at h
  unfold composeFlat
  rw [text, text, texts_eq_map, texts_eq_map]
  split at h
  · rename_i hinvariant
    rw [if_pos hinvariant, if_pos hinvariant, map_text_stableSort h]
  · rename_i hfixed
    rw [if_neg hfixed, if_neg hfixed, h]

theorem text_compose_congr (h : SameTexts connector ts us) (intervals : List UInt32) :
    (compose connector ts intervals).text = (compose connector us intervals).text := by
  cases hset : connector.isSet with
  | false =>
    rw [compose_of_not_isSet hset, compose_of_not_isSet hset]
    exact text_composeFlat_congr h intervals
  | true =>
    have hinvariant : connector.isOrderInvariant = true := by
      cases connector with
      | extensionalSet | intensionalSet => rfl
      | _ => exact absurd hset (by decide)
    have hperm := h
    rw [SameTexts, if_pos hinvariant] at hperm
    have hlength : ts.length = us.length := by
      simpa using hperm.length_eq
    unfold compose
    rw [hlength]
    split
    · apply text_composeFlat_congr
      have hjoined : connector.joined.isOrderInvariant = true := by
        cases connector <;> rfl
      -- The text of a singleton is made from that of its element.
      have hsingle : ∀ t : Term, (composeFlat connector [t] []).text =
          (composeFlat connector [atom t.text] []).text := by
        intro t
        apply text_composeFlat_congr
        exact sameTexts_of_map_eq rfl
      have hmap : ∀ xs : List Term, (xs.map fun t => composeFlat connector [t] []).map text =
          (xs.map text).map fun x => (composeFlat connector [atom x] []).text := by
        intro xs
        rw [List.map_map, List.map_map]
        exact List.map_congr_left fun t _ => hsingle t
      rw [SameTexts, if_pos hjoined, hmap, hmap]
      exact hperm.map _
    · exact text_composeFlat_congr h intervals

theorem text_relate_congr {s s' : Term} {copula : Copula} (hs : s.text = s'.text)
    (ht : t.text = u.text) (interval : UInt32) :
    (relate s copula t interval).text = (relate s' copula u interval).text := by
  unfold relate
  rw [hs, ht]
  split
  · rw [text, text, hs, ht]
  · rw [text, text, hs, ht]

theorem text_relate_swap {copula : Copula} (h : copula.isSymmetric = true) (s t : Term)
    (interval : UInt32) :
    (relate s copula t interval).text = (relate t copula s interval).text := by
  simp only [relate, h, Bool.true_and, decide_eq_true_eq]
  by_cases hst : s.text < t.text
  · rw [if_neg (String.lt_asymm hst), if_pos hst]
  · by_cases hts : t.text < s.text
    · rw [if_pos hts, if_neg hst]
    · have heq : s.text = t.text :=
        String.le_antisymm (String.not_lt.1 hts) (String.not_lt.1 hst)
      rw [if_neg hts, if_neg hst, text, text, heq]

theorem text_ofVariable_congr {kind : VariableKind} {name : String}
    (h : ts.map text = us.map text) (ht : ofVariable kind name ts = .ok t) :
    ∃ u, ofVariable kind name us = .ok u ∧ u.text = t.text := by
  obtain ⟨rfl, hname⟩ := ofVariable_eq_ok.1 ht
  refine ⟨_, ofVariable_eq_ok.2 ⟨rfl, hname⟩, ?_⟩
  have hempty : us.isEmpty = ts.isEmpty := by
    rw [← List.isEmpty_map (f := text), ← h, List.isEmpty_map]
  rw [text, text, texts_eq_map, texts_eq_map, h, hempty]

/-! ## Changing places -/

/-- One plan is the other with what may change places in another order, at any depth: the operands
of connectors for which their order does not matter, the elements of sets among them, and the sides
of symmetric copulas. -/
inductive Permuted : Term → Term → Prop where
  | refl (p : Term) : Permuted p p
  | trans {p q r : Term} : Permuted p q → Permuted q r → Permuted p r
  | operands {connector : Connector} {ps qs : List Term} (intervals : List UInt32)
      (invariant : connector.isOrderInvariant = true) (perm : ps.Perm qs) :
      Permuted (compound connector ps intervals) (compound connector qs intervals)
  | sides {copula : Copula} (p q : Term) (interval : UInt32)
      (symmetric : copula.isSymmetric = true) :
      Permuted (statement p copula q interval) (statement q copula p interval)
  | dependency {p q : Term} (kind : VariableKind) (name : String) (before behind : List Term) :
      Permuted p q →
        Permuted (var kind name (before ++ p :: behind)) (var kind name (before ++ q :: behind))
  | operand {p q : Term} (connector : Connector) (before behind : List Term)
      (intervals : List UInt32) : Permuted p q →
        Permuted (compound connector (before ++ p :: behind) intervals)
          (compound connector (before ++ q :: behind) intervals)
  | subject {p q : Term} (copula : Copula) (r : Term) (interval : UInt32) : Permuted p q →
      Permuted (statement p copula r interval) (statement q copula r interval)
  | predicate {p q : Term} (r : Term) (copula : Copula) (interval : UInt32) : Permuted p q →
      Permuted (statement r copula p interval) (statement r copula q interval)

theorem buildAll_replace {before behind : List Term}
    (h : ∀ {t}, p.build = .ok t → ∃ u, q.build = .ok u ∧ u.text = t.text)
    (ht : buildAll (before ++ p :: behind) = .ok ts) :
    ∃ us, buildAll (before ++ q :: behind) = .ok us ∧ us.map text = ts.map text := by
  induction before generalizing ts with
  | nil =>
    obtain ⟨t, ts, hp, hbehind, rfl⟩ := buildAll_cons_eq_ok.1 ht
    obtain ⟨u, hu, htext⟩ := h hp
    exact ⟨u :: ts, buildAll_cons_eq_ok.2 ⟨u, ts, hu, hbehind, rfl⟩, by simp [htext]⟩
  | cons first before ih =>
    obtain ⟨t, ts, hfirst, hrest, rfl⟩ := buildAll_cons_eq_ok.1 ht
    obtain ⟨us, hus, htexts⟩ := ih hrest
    exact ⟨t :: us, buildAll_cons_eq_ok.2 ⟨t, us, hfirst, hus, rfl⟩, by simp [htexts]⟩

/-- The order of what may change places does not show in what is built. -/
theorem Permuted.exists_build (h : Permuted p q) (ht : p.build = .ok t) :
    ∃ u, q.build = .ok u ∧ u.text = t.text := by
  induction h generalizing t with
  | refl => exact ⟨t, ht, rfl⟩
  | trans _ _ ihp ihq =>
    obtain ⟨u, hu, htu⟩ := ihp ht
    obtain ⟨v, hv, huv⟩ := ihq hu
    exact ⟨v, hv, huv.trans htu⟩
  | @operands connector ps qs intervals invariant perm =>
    obtain ⟨ts, hts, rfl⟩ := build_compound_eq_ok.1 ht
    -- Building goes operand by operand, so permuted operands build to permuted terms.
    obtain ⟨us, hus, hperm⟩ := List.perm_comp_forall₂ perm.symm (buildAll_eq_ok.1 hts)
    refine ⟨_, build_compound_eq_ok.2 ⟨us, buildAll_eq_ok.2 hus, rfl⟩, ?_⟩
    apply text_compose_congr
    rw [SameTexts, if_pos invariant]
    exact hperm.map text
  | sides p q interval symmetric =>
    obtain ⟨s, u, hs, hu, rfl⟩ := build_statement_eq_ok.1 ht
    exact ⟨_, build_statement_eq_ok.2 ⟨u, s, hu, hs, rfl⟩, text_relate_swap symmetric u s interval⟩
  | dependency kind name before behind _ ih =>
    obtain ⟨ts, hts, ht⟩ := build_var_eq_ok.1 ht
    obtain ⟨us, hus, htexts⟩ := buildAll_replace ih hts
    obtain ⟨u, hu, htext⟩ := text_ofVariable_congr htexts.symm ht
    exact ⟨u, build_var_eq_ok.2 ⟨us, hus, hu⟩, htext⟩
  | operand connector before behind intervals _ ih =>
    obtain ⟨ts, hts, rfl⟩ := build_compound_eq_ok.1 ht
    obtain ⟨us, hus, htexts⟩ := buildAll_replace ih hts
    exact ⟨_, build_compound_eq_ok.2 ⟨us, hus, rfl⟩,
      text_compose_congr (sameTexts_of_map_eq htexts) intervals⟩
  | subject copula r interval _ ih =>
    obtain ⟨s, u, hs, hu, rfl⟩ := build_statement_eq_ok.1 ht
    obtain ⟨s', hs', htext⟩ := ih hs
    exact ⟨_, build_statement_eq_ok.2 ⟨s', u, hs', hu, rfl⟩, text_relate_congr htext rfl interval⟩
  | predicate r copula interval _ ih =>
    obtain ⟨s, u, hs, hu, rfl⟩ := build_statement_eq_ok.1 ht
    obtain ⟨u', hu', htext⟩ := ih hu
    exact ⟨_, build_statement_eq_ok.2 ⟨s, u', hs, hu', rfl⟩, text_relate_congr rfl htext interval⟩

/-- The text of a term is its identity. Terms that were built have the same text exactly if they are
the same tree, up to intervals and to the difference between independent and dependent variables.
Building anew from a plan in which what may change places has changed places gives the same text,
and a term that was built is a plan of itself. -/
theorem text_identifies :
    (∀ {s t : Term}, s.Built → t.Built → (s.text = t.text ↔ s.untagged = t.untagged)) ∧
      (∀ {t : Term}, t.Built → t.build = .ok t) ∧
        ∀ {p q t : Term}, Permuted p q → p.build = .ok t →
          ∃ u, q.build = .ok u ∧ u.text = t.text := by
  refine ⟨?_, ?_, ?_⟩
  · intro s t hs ht
    exact text_eq_iff hs.named ht.named
  · intro t ht
    exact ht.build_eq
  · intro p q t h ht
    exact h.exists_build ht

theorem text_identifies_set :
    let t := compose .extensionalSet [atom "b", atom "a"] []
    t.Built ∧ (t.text = (atom "a").text ↔ t.untagged = (atom "a").untagged) ∧ t.build = .ok t ∧
      ∃ u, (compound .extensionalSet [atom "a", atom "b"] []).build = .ok u ∧ u.text = t.text := by
  have ha : (atom "a").Built := .ofName (show ofName "a" = _ from rfl)
  have hb : (atom "b").Built := .ofName (show ofName "b" = _ from rfl)
  have hset : (compose .extensionalSet [atom "b", atom "a"] []).Built := .compose (by simp [ha, hb])
  have hplan : (compound .extensionalSet [atom "b", atom "a"] []).build =
      .ok (compose .extensionalSet [atom "b", atom "a"] []) := rfl
  exact ⟨hset, text_identifies.1 hset ha, text_identifies.2.1 hset,
    text_identifies.2.2 (.operands [] rfl (.swap _ _ _)) hplan⟩

end Term

end NonAxiomatic
