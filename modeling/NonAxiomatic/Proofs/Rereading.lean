import NonAxiomatic.Proofs.Rebuilding

/-!
# Reading what was built

A built term is read back from its text, variables included, if the text shows what the term is
(`Term.IsDisplayed`): no compound is empty, no operand is taken for a time gap or cut at a property
copula, variables depend on plain ones only, and the text is neither too long nor nested too deep.

Operations and complexities depend on what is written only, so that they agree at every node as soon
as the trees do (`Term.map_nodes_eq`).

**Theorem (`Term.parse_text_timeless`).** From the text of a built term that is displayed by it, the
same tree is read: it differs from the term in its intervals only.
-/

namespace NonAxiomatic

namespace Term

variable {t u : Term} {ts : List Term} {connector : Connector}

/-! ## Empty compounds -/

mutual

/-- Whether every compound in a term has operands. -/
def isFull : Term → Bool
  | atom _ => true
  | var _ _ dependencies => areFull dependencies
  | compound _ operands _ => !operands.isEmpty && areFull operands
  | statement subject _ predicate _ => subject.isFull && predicate.isFull

/-- Whether every compound in several terms has operands. -/
def areFull : List Term → Bool
  | [] => true
  | t :: ts => t.isFull && areFull ts

end

theorem areFull_iff : areFull ts = true ↔ ∀ t ∈ ts, t.isFull = true := by
  induction ts with
  | nil => simp [areFull]
  | cons t ts ih => rw [areFull, Bool.and_eq_true, ih, List.forall_mem_cons]

theorem isFull_composeFlat (intervals : List UInt32) :
    (composeFlat connector ts intervals).isFull = true ↔ ts ≠ [] ∧ ∀ t ∈ ts, t.isFull = true := by
  unfold composeFlat
  rw [isFull, Bool.and_eq_true, areFull_iff, Bool.not_eq_true', List.isEmpty_eq_false_iff]
  split
  · rw [← List.length_pos_iff, length_stableSort, List.length_pos_iff]
    simp only [mem_stableSort]
  · rfl

theorem isFull_compose (intervals : List UInt32) :
    (compose connector ts intervals).isFull = true ↔ ts ≠ [] ∧ ∀ t ∈ ts, t.isFull = true := by
  unfold compose
  split
  · rw [isFull_composeFlat, List.forall_mem_map, Ne, List.map_eq_nil_iff]
    simp only [isFull_composeFlat, List.forall_mem_singleton]
    simp
  · exact isFull_composeFlat intervals

theorem isFull_relate {s : Term} {copula : Copula} {interval : UInt32} :
    (relate s copula t interval).isFull = true ↔ s.isFull = true ∧ t.isFull = true := by
  unfold relate
  split
  · rw [isFull, Bool.and_eq_true, and_comm]
  · rw [isFull, Bool.and_eq_true]

/-- A built term without empty compounds is well-formed. -/
theorem Built.formed (h : t.Built) (hfull : t.isFull = true) : t.Formed := by
  induction h with
  | ofName h =>
    obtain ⟨rfl, nonempty, characters⟩ := ofName_eq_ok.1 h
    exact .atom nonempty characters
  | ofVariable _ h =>
    obtain ⟨rfl, _⟩ := ofVariable_eq_ok.1 h
    exact .var
  | compose _ ih =>
    obtain ⟨hne, hall⟩ := (isFull_compose _).1 hfull
    exact formed_compose hne (fun t ht => ih t ht (hall t ht)) _
  | relate _ _ ihs ihp =>
    obtain ⟨hs, hp⟩ := isFull_relate.1 hfull
    exact formed_relate (ihs hs) (ihp hp) _ _

/-! ## Nodes -/

mutual

/-- A term and everything in it, from left to right, the whole in front of its parts. -/
def nodes : Term → List Term
  | atom name => [atom name]
  | var kind name dependencies => var kind name dependencies :: allNodes dependencies
  | compound connector operands intervals =>
    compound connector operands intervals :: allNodes operands
  | statement subject copula predicate interval =>
    statement subject copula predicate interval :: (subject.nodes ++ predicate.nodes)

/-- Several terms and everything in them. -/
def allNodes : List Term → List Term
  | [] => []
  | t :: ts => t.nodes ++ allNodes ts

end

section
variable (tag : VariableKind → VariableKind)

mutual

theorem nodes_skeleton : (t : Term) → (t.skeleton tag).nodes = t.nodes.map fun n => n.skeleton tag
  | atom _ => rfl
  | var kind name dependencies => by
    rw [skeleton, nodes, nodes, allNodes_skeletons dependencies, List.map_cons, skeleton]
  | compound connector operands _ => by
    rw [skeleton, nodes, nodes, allNodes_skeletons operands, List.map_cons, skeleton]
  | statement subject copula predicate _ => by
    rw [skeleton, nodes, nodes, nodes_skeleton subject, nodes_skeleton predicate, List.map_cons,
      List.map_append, skeleton]

theorem allNodes_skeletons : (ts : List Term) →
    allNodes (skeletons tag ts) = (allNodes ts).map fun n => n.skeleton tag
  | [] => rfl
  | t :: ts => by
    rw [skeletons, allNodes, allNodes, nodes_skeleton t, allNodes_skeletons ts, List.map_append]

end

theorem length_skeletons (ts : List Term) : (skeletons tag ts).length = ts.length := by
  rw [skeletons_eq_map, List.length_map]

mutual

theorem complexity_skeleton : (t : Term) → (t.skeleton tag).complexity = t.complexity
  | atom _ => rfl
  | var kind name dependencies => by
    rw [skeleton, complexity, complexity, length_skeletons]
  | compound connector operands _ => by
    rw [skeleton, complexity, complexity, complexities_skeletons operands]
  | statement subject copula predicate _ => by
    rw [skeleton, complexity, complexity, complexity_skeleton subject,
      complexity_skeleton predicate]

theorem complexities_skeletons : (ts : List Term) →
    complexities (skeletons tag ts) = complexities ts
  | [] => rfl
  | t :: ts => by
    rw [skeletons, complexities, complexities, complexity_skeleton t, complexities_skeletons ts]

end

end

section
variable {tag : VariableKind → VariableKind}

theorem isSelf_skeleton (htag : ∀ kind, (tag kind).symbol = kind.symbol) (t : Term) :
    (t.skeleton tag).isSelf = t.isSelf := by
  cases t with
  | compound connector operands intervals =>
    cases operands with
    | nil => cases connector <;> rfl
    | cons first rest =>
      cases rest with
      | nil =>
        cases connector with
        | extensionalSet =>
          show ((first.skeleton tag).text == selfName) = (first.text == selfName)
          rw [text_skeleton htag]
        | _ => rfl
      | cons second rest => cases connector <;> rfl
  | _ => rfl

mutual

theorem isOperation_skeleton (htag : ∀ kind, (tag kind).symbol = kind.symbol) :
    (t : Term) → (t.skeleton tag).isOperation = t.isOperation
  | atom _ | var .. => rfl
  | compound connector operands _ => by
    rw [skeleton, isOperation, isOperation, length_skeletons, allOperations_skeletons htag operands]
  | statement subject copula predicate _ => by
    -- Only a product with an operand can make a statement an operation.
    cases subject with
    | compound connector operands intervals =>
      cases connector with
      | product =>
        cases operands with
        | nil => rfl
        | cons first rest =>
          show (first.skeleton tag).isSelf = first.isSelf
          exact isSelf_skeleton htag first
      | _ => rfl
    | _ => rfl

theorem allOperations_skeletons (htag : ∀ kind, (tag kind).symbol = kind.symbol) :
    (ts : List Term) → allOperations (skeletons tag ts) = allOperations ts
  | [] => rfl
  | t :: ts => by
    rw [skeletons, allOperations, allOperations, isOperation_skeleton htag t,
      allOperations_skeletons htag ts]

end

end

/-- What does not depend on intervals agrees at all nodes of terms that differ in intervals only. -/
theorem map_nodes_eq {α : Type} {f : Term → α} (hf : ∀ n : Term, f n.timeless = f n)
    (h : u.timeless = t.timeless) : u.nodes.map f = t.nodes.map f := by
  have hmap : ∀ s : Term, s.nodes.map f = s.timeless.nodes.map f := by
    intro s
    rw [timeless, nodes_skeleton, List.map_map]
    exact List.map_congr_left fun n _ => (hf n).symm
  rw [hmap u, hmap t, h]

/-! ## Reading -/

/-- The text of a term shows what the term is, and can be read. -/
structure IsDisplayed (t : Term) : Prop where
  /-- No compound is empty. -/
  full : t.isFull = true
  /-- No operand of a compound is a name made up of digits or holds a property copula. -/
  legible : t.isLegible = true
  /-- Variables depend on plain ones only, and are of the kinds that they are read with. -/
  plain : t.hasPlainVariables = true
  /-- Brackets are not nested too deep. -/
  depth_le : t.bracketDepth ≤ maxDepth
  /-- The text is not too long. -/
  size_le : t.text.utf8ByteSize ≤ SyntaxError.maxSentenceBytes

instance (t : Term) : Decidable t.IsDisplayed :=
  decidable_of_iff (t.isFull = true ∧ t.isLegible = true ∧ t.hasPlainVariables = true ∧
    t.bracketDepth ≤ maxDepth ∧ t.text.utf8ByteSize ≤ SyntaxError.maxSentenceBytes)
    ⟨fun h => ⟨h.1, h.2.1, h.2.2.1, h.2.2.2.1, h.2.2.2.2⟩,
      fun h => ⟨h.full, h.legible, h.plain, h.depth_le, h.size_le⟩⟩

/-- From the text of a built term that is displayed by it, the same tree is read, but for the
intervals, with the same operations and the same complexities at all nodes. -/
theorem parse_text_timeless (h : t.Built) (hdisplayed : t.IsDisplayed) :
    ∃ u, parse t.text = .ok u ∧ u.timeless = t.timeless ∧
      u.nodes.map isOperation = t.nodes.map isOperation ∧
      u.nodes.map complexity = t.nodes.map complexity := by
  obtain ⟨u, hu, hrecalls⟩ := recalls_readAt (h.formed hdisplayed.full) h.named hdisplayed.plain
    hdisplayed.legible (Nat.lt_succ_of_le hdisplayed.depth_le)
  refine ⟨u, ?_, hrecalls.timeless_eq, ?_, ?_⟩
  · rw [parse_text_eq h.named, if_neg (Nat.not_lt_of_le hdisplayed.size_le)]
    exact hu
  · exact map_nodes_eq (isOperation_skeleton fun _ => rfl) hrecalls.timeless_eq
  · exact map_nodes_eq (complexity_skeleton id) hrecalls.timeless_eq

theorem parse_text_timeless_dependent :
    let t :=
      statement (compound .product [atom "a", var .dependent "y" [var .independent "x" []]] [])
        .inheritance (atom "b") 0
    t.Built ∧ t.IsDisplayed ∧ ∃ u, parse t.text = .ok u ∧ u.timeless = t.timeless ∧
      u.nodes.map isOperation = t.nodes.map isOperation ∧
      u.nodes.map complexity = t.nodes.map complexity := by
  intro t
  have hbuilt : t.Built := built_of_build t rfl
  have hdisplayed : t.IsDisplayed := by decide
  exact ⟨hbuilt, hdisplayed, parse_text_timeless hbuilt hdisplayed⟩

end Term

end NonAxiomatic
