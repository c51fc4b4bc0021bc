import NonAxiomatic.Reader

/-!
# Passing over text

What the two searches in a term's text do with a stretch of characters, whatever follows it.
`SkippedFrom n cs` says that no copula is found in `cs` while `n` or more round brackets are open,
`BalancedFrom n cs` that no piece ends in `cs` while `n` or more brackets are open. Brackets around
a stretch take one off `n`, so that what is known of the inner of a text carries over to all of it.

* `Term.topCopula?_statement`: a copula between two stretches is the one that is found.
* `Term.splitOperands_intercalate`: stretches between commas are found again.
* `Term.countP_of_splitOperands`: only text whose brackets match in number is split.
-/

namespace NonAxiomatic

/-! ## The characters of symbols -/

theorem Connector.ne_bracket (connector : Connector) :
    ∀ c ∈ connector.symbol.toList, c ≠ '(' ∧ c ≠ ')' := by
  cases connector <;> simp [symbol]

namespace Copula

theorem head?_symbol_of_ofSymbol? {c : Char} {rest : List Char} {k : Copula}
    (h : ofSymbol? (c :: rest) = some k) : k.symbol.toList.head? = some c := by
  rw [symbol_of_ofSymbol? h]
  rfl

theorem ne_bracket (k : Copula) : ∀ c ∈ k.symbol.toList, c ≠ '(' ∧ c ≠ ')' := by
  cases k <;> simp [symbol]

/-- Only the characters of copulas write one. -/
theorem ofSymbol?_eq_none {cs : List Char} {c : Char} (hc : c ∈ cs)
    (h : ∀ k : Copula, c ∉ k.symbol.toList) : ofSymbol? cs = none := by
  cases hk : ofSymbol? cs with
  | none => rfl
  | some k =>
    rw [← symbol_of_ofSymbol? hk] at hc
    exact absurd hc (h k)

end Copula

namespace Term

variable {m n : Nat} {cs ds : List Char} {place : Nat} {depth : Int} {rest : List Char}

/-! ## Finding the copula -/

theorem copulasFrom_cons_of_none {c : Char} (hopen : c ≠ '(') (hclose : c ≠ ')')
    (h : depth = 1 → Copula.ofSymbol? (c :: rest.take 2) = none) :
    copulasFrom place depth (c :: rest) = copulasFrom (place + 1) depth rest := by
  have h₁ : (c == '(') = false := beq_false_of_ne hopen
  have h₂ : (c == ')') = false := beq_false_of_ne hclose
  simp only [copulasFrom, h₁, h₂, Bool.false_eq_true, if_false]
  split
  · rename_i copula hd hsome
    rw [h (eq_of_beq hd)] at hsome
    exact absurd hsome (by simp)
  · rfl

theorem copulasFrom_open (place : Nat) (depth : Int) (rest : List Char) :
    copulasFrom place depth ('(' :: rest) = copulasFrom (place + 1) (depth + 1) rest := rfl

theorem copulasFrom_close (place : Nat) (depth : Int) (rest : List Char) :
    copulasFrom place depth (')' :: rest) = copulasFrom (place + 1) (depth - 1) rest := rfl

/-- No copula is found in these characters while that many round brackets are open. -/
def SkippedFrom (n : Nat) (cs : List Char) : Prop :=
  ∀ (place : Nat) (depth : Int) (rest : List Char), (n : Int) ≤ depth →
    copulasFrom place depth (cs ++ rest) = copulasFrom (place + cs.length) depth rest

namespace SkippedFrom

theorem mono (h : SkippedFrom m cs) (hmn : m ≤ n) : SkippedFrom n cs :=
  fun place depth rest hd => h place depth rest (by omega)

theorem append (hc : SkippedFrom n cs) (hd : SkippedFrom n ds) : SkippedFrom n (cs ++ ds) := by
  intro place depth rest hn
  rw [List.append_assoc, hc _ _ _ hn, hd _ _ _ hn, List.length_append, Nat.add_assoc]

theorem brackets (h : SkippedFrom (n + 1) cs) : SkippedFrom n ('(' :: (cs ++ [')'])) := by
  intro place depth rest hn
  rw [List.cons_append, copulasFrom_open, List.append_assoc, h _ _ _ (by omega),
    List.singleton_append, copulasFrom_close, Int.add_sub_cancel, List.length_cons,
    List.length_append, List.length_singleton]
  congr 1
  omega

/-- Characters that are no brackets are passed over inside of two brackets. -/
theorem of_deep (h : ∀ c ∈ cs, c ≠ '(' ∧ c ≠ ')') : SkippedFrom 2 cs := by
  induction cs with
  | nil => exact fun place depth rest _ => rfl
  | cons c cs ih =>
    intro place depth rest hd
    obtain ⟨hopen, hclose⟩ := h c (by simp)
    rw [List.cons_append, copulasFrom_cons_of_none hopen hclose (by omega),
      ih (fun d hd => h d (by simp [hd])) _ _ _ hd, List.length_cons, Nat.add_right_comm,
      Nat.add_assoc]

/-- Characters that begin no copula are passed over anywhere. -/
theorem of_plain (h : ∀ c ∈ cs, c ≠ '(' ∧ c ≠ ')' ∧ ∀ k : Copula, k.symbol.toList.head? ≠ some c) :
    SkippedFrom n cs := by
  induction cs with
  | nil => exact fun place depth rest _ => rfl
  | cons c cs ih =>
    intro place depth rest hd
    obtain ⟨hopen, hclose, hhead⟩ := h c (by simp)
    have hnone : Copula.ofSymbol? (c :: (cs ++ rest).take 2) = none := by
      cases hk : Copula.ofSymbol? (c :: (cs ++ rest).take 2) with
      | none => rfl
      | some k => exact absurd (Copula.head?_symbol_of_ofSymbol? hk) (hhead k)
    rw [List.cons_append, copulasFrom_cons_of_none hopen hclose fun _ => hnone,
      ih (fun d hd => h d (by simp [hd])) _ _ _ hd, List.length_cons, Nat.add_right_comm,
      Nat.add_assoc]

end SkippedFrom

theorem copulasFrom_cons_of_some {c : Char} {copula : Copula} (hopen : c ≠ '(') (hclose : c ≠ ')')
    (h : Copula.ofSymbol? (c :: rest.take 2) = some copula) :
    copulasFrom place 1 (c :: rest) = (place, copula) :: copulasFrom (place + 1) 1 rest := by
  have h₁ : (c == '(') = false := beq_false_of_ne hopen
  have h₂ : (c == ')') = false := beq_false_of_ne hclose
  simp only [copulasFrom, h₁, h₂, Bool.false_eq_true, if_false, h, beq_self_eq_true]

/-- A copula is found at its place, and not once more within its characters. -/
theorem copulasFrom_symbol_append {p : Char} (hp : ∀ k : Copula, p ∉ k.symbol.toList)
    (copula : Copula) : copulasFrom place 1 (copula.symbol.toList ++ p :: rest) =
      (place, copula) :: copulasFrom (place + 3) 1 (p :: rest) := by
  have hbracket : ∀ c ∈ copula.symbol.toList, c ≠ '(' ∧ c ≠ ')' :=
    copula.ne_bracket
  have hself := Copula.ofSymbol?_symbol copula
  obtain ⟨a, b, c, hsymbol⟩ : ∃ a b c, copula.symbol.toList = [a, b, c] := by
    cases copula <;> exact ⟨_, _, _, rfl⟩
  rw [hsymbol] at hbracket hself ⊢
  obtain ⟨ha, hb, hc⟩ : (a ≠ '(' ∧ a ≠ ')') ∧ (b ≠ '(' ∧ b ≠ ')') ∧ c ≠ '(' ∧ c ≠ ')' := by
    simpa using hbracket
  show copulasFrom place 1 (a :: b :: c :: p :: rest) = _
  have hfound : copulasFrom place 1 (a :: b :: c :: p :: rest) =
      (place, copula) :: copulasFrom (place + 1) 1 (b :: c :: p :: rest) :=
    copulasFrom_cons_of_some ha.1 ha.2 hself
  rw [hfound,
    copulasFrom_cons_of_none hb.1 hb.2 fun _ => Copula.ofSymbol?_eq_none (c := p) (by simp) hp,
    copulasFrom_cons_of_none hc.1 hc.2 fun _ => Copula.ofSymbol?_eq_none (c := p) (by simp) hp]

/-- The copula between the two sides of a statement is the one that is found. -/
theorem topCopula?_statement {ps : List Char} {p : Char} (hc : SkippedFrom 1 cs)
    (hd : SkippedFrom 1 (p :: ps)) (hp : ∀ k : Copula, p ∉ k.symbol.toList) (copula : Copula) :
    topCopula? ('(' :: (cs ++ (copula.symbol.toList ++ p :: ps) ++ [')'])) =
      some (1 + cs.length, copula) := by
  have hend : ∀ place, copulasFrom place 1 [')'] = [] := fun _ => rfl
  have hall : copulasFrom 0 0 ('(' :: (cs ++ (copula.symbol.toList ++ p :: ps) ++ [')'])) =
      [(1 + cs.length, copula)] := by
    rw [copulasFrom_open, List.append_assoc, List.append_assoc, List.cons_append,
      hc _ _ _ (by decide)]
    show copulasFrom _ 1 _ = _
    rw [copulasFrom_symbol_append hp, ← List.cons_append, hd _ _ _ (by decide), hend, Nat.zero_add]
  rw [topCopula?, hall]
  rfl

/-- The symbol of a connector is passed over, as a comma follows it. -/
theorem copulasFrom_connector (place : Nat) (connector : Connector) (rest : List Char) :
    ∃ place', copulasFrom place 1 (connector.symbol.toList ++ ',' :: rest) =
      copulasFrom place' 1 rest := by
  have hcomma : ∀ k : Copula, ',' ∉ k.symbol.toList := by
    intro k
    cases k <;> simp [Copula.symbol]
  have hbracket := connector.ne_bracket
  have skip : ∀ {c : Char} {cs : List Char} {place : Nat}, c ≠ '(' ∧ c ≠ ')' →
      ',' ∈ c :: cs.take 2 → copulasFrom place 1 (c :: cs) = copulasFrom (place + 1) 1 cs := by
    intro c cs place hc hmem
    exact copulasFrom_cons_of_none hc.1 hc.2 fun _ => Copula.ofSymbol?_eq_none hmem hcomma
  obtain ⟨a, hsymbol⟩ | ⟨a, b, hsymbol⟩ : (∃ a, connector.symbol.toList = [a]) ∨
      ∃ a b, connector.symbol.toList = [a, b] := by
    cases connector <;> first | exact .inl ⟨_, rfl⟩ | exact .inr ⟨_, _, rfl⟩
  · rw [hsymbol] at hbracket ⊢
    refine ⟨place + 1 + 1, ?_⟩
    rw [List.singleton_append, skip (hbracket a (by simp)) (by simp),
      skip (by decide) (by simp)]
  · rw [hsymbol] at hbracket ⊢
    refine ⟨place + 1 + 1 + 1, ?_⟩
    show copulasFrom place 1 (a :: b :: ',' :: rest) = _
    rw [skip (hbracket a (by simp)) (by simp), skip (hbracket b (by simp)) (by simp),
      skip (by decide) (by simp)]

/-- No copula is found in a compound. -/
theorem topCopula?_compound (connector : Connector) (h : SkippedFrom 1 cs) :
    topCopula? ('(' :: (connector.symbol.toList ++ ',' :: cs ++ [')'])) = none := by
  obtain ⟨place, hplace⟩ := copulasFrom_connector (0 + 1) connector (cs ++ [')'])
  rw [topCopula?, copulasFrom_open, List.append_assoc, List.cons_append]
  show (copulasFrom _ 1 _).getLast? = none
  rw [hplace, h _ _ _ (by decide)]
  rfl

/-! ## Finding the operands -/

/-- Put characters in front of the first piece. -/
def pushAll (cs : List Char) (pieces : List (List Char)) : List (List Char) :=
  cs.foldr pushFirst pieces

theorem pushAll_cons (cs piece : List Char) (pieces : List (List Char)) :
    pushAll cs (piece :: pieces) = (cs ++ piece) :: pieces := by
  induction cs with
  | nil => rfl
  | cons c cs ih =>
    show pushFirst c (pushAll cs (piece :: pieces)) = _
    rw [ih]
    rfl

theorem map_pushAll_append (x : Option (List (List Char))) :
    x.map (pushAll (cs ++ ds)) = (x.map (pushAll ds)).map (pushAll cs) := by
  rw [Option.map_map]
  congr 1
  funext pieces
  exact List.foldr_append

theorem map_pushAll_cons (c : Char) (x : Option (List (List Char))) :
    x.map (pushAll (c :: cs)) = (x.map (pushAll cs)).map (pushFirst c) := by
  rw [Option.map_map]
  rfl

/-- No piece ends in these characters while that many brackets are open. -/
def BalancedFrom (n : Nat) (cs : List Char) : Prop :=
  ∀ (depth : Nat) (rest : List Char), n ≤ depth →
    splitOperands depth (cs ++ rest) = (splitOperands depth rest).map (pushAll cs)

theorem closesBracket_of_opensBracket {c : Char} (h : opensBracket c = true) :
    closesBracket c = false := by
  simp only [opensBracket, opensSet, Bool.or_eq_true, beq_iff_eq] at h
  rcases h with rfl | rfl | rfl <;> rfl

theorem splitOperands_open {c : Char} (h : opensBracket c = true) (depth : Nat)
    (rest : List Char) : splitOperands depth (c :: rest) =
      (splitOperands (depth + 1) rest).map (pushFirst c) := by
  cases depth <;> simp only [splitOperands, h, if_true]

theorem splitOperands_close {c : Char} (hopen : opensBracket c = false)
    (h : closesBracket c = true) (depth : Nat) (rest : List Char) :
    splitOperands (depth + 1) (c :: rest) = (splitOperands depth rest).map (pushFirst c) := by
  simp only [splitOperands, hopen, h, Bool.false_eq_true, if_false, if_true]

theorem splitOperands_keep {c : Char} {depth : Nat} (hopen : opensBracket c = false)
    (hclose : closesBracket c = false) (h : (c == ',' && depth == 0) = false)
    (rest : List Char) :
    splitOperands depth (c :: rest) = (splitOperands depth rest).map (pushFirst c) := by
  cases depth <;> simp only [splitOperands, hopen, hclose, h, Bool.false_eq_true, if_false]

theorem splitOperands_comma (rest : List Char) :
    splitOperands 0 (',' :: rest) = (splitOperands 0 rest).map ([] :: ·) := rfl

namespace BalancedFrom

theorem mono (h : BalancedFrom m cs) (hmn : m ≤ n) : BalancedFrom n cs :=
  fun depth rest hd => h depth rest (Nat.le_trans hmn hd)

theorem append (hc : BalancedFrom n cs) (hd : BalancedFrom n ds) : BalancedFrom n (cs ++ ds) := by
  intro depth rest hn
  rw [List.append_assoc, hc _ _ hn, hd _ _ hn, map_pushAll_append]

theorem brackets {first last : Char} (hfirst : opensBracket first = true)
    (hlast : opensBracket last = false ∧ closesBracket last = true)
    (h : BalancedFrom (n + 1) cs) : BalancedFrom n (first :: (cs ++ [last])) := by
  intro depth rest hn
  rw [List.cons_append, splitOperands_open hfirst, List.append_assoc,
    h _ _ (Nat.succ_le_succ hn), List.singleton_append, splitOperands_close hlast.1 hlast.2,
    map_pushAll_cons, map_pushAll_append]
  rfl

/-- A piece ends only at a bracket or a comma, and at a comma only outside of all brackets. -/
theorem of_plain (h : ∀ c ∈ cs, opensBracket c = false ∧ closesBracket c = false ∧
    (c = ',' → 0 < n)) : BalancedFrom n cs := by
  induction cs with
  | nil =>
    intro depth rest _
    rw [List.nil_append, show pushAll [] = id from rfl, Option.map_id, id]
  | cons c cs ih =>
    intro depth rest hn
    obtain ⟨hopen, hclose, hcomma⟩ := h c (by simp)
    have hkeep : (c == ',' && depth == 0) = false := by
      by_cases hc : c = ','
      · have := hcomma hc
        have hd : (depth == 0) = false := beq_false_of_ne (by omega)
        rw [hd, Bool.and_false]
      · rw [beq_false_of_ne hc, Bool.false_and]
    rw [List.cons_append, splitOperands_keep hopen hclose hkeep,
      ih (fun d hd => h d (by simp [hd])) _ _ hn, map_pushAll_cons]

end BalancedFrom

/-- What stands between commas is found again. -/
theorem splitOperands_intercalate {xs : List (List Char)} (hne : xs ≠ [])
    (h : ∀ x ∈ xs, BalancedFrom 0 x) : splitOperands 0 ([','].intercalate xs) = some xs := by
  induction xs with
  | nil => exact absurd rfl hne
  | cons x xs ih =>
    have hx := h x (by simp)
    by_cases hxs : xs = []
    · subst hxs
      rw [List.intercalate_singleton, ← List.append_nil x, hx _ _ (Nat.le_refl 0)]
      show some (pushAll x [[]]) = _
      rw [pushAll_cons]
    · rw [List.intercalate_cons_of_ne_nil hxs, List.append_assoc, hx _ _ (Nat.le_refl 0),
        List.singleton_append, splitOperands_comma, ih hxs fun y hy => h y (by simp [hy])]
      show some (pushAll x ([] :: xs)) = _
      rw [pushAll_cons, List.append_nil]

/-- Text without commas is one piece. -/
theorem eq_of_splitOperands {depth : Nat} {pieces : List (List Char)}
    (h : splitOperands depth cs = some pieces) (hcomma : ',' ∉ cs) : pieces = [cs] := by
  fun_induction splitOperands depth cs generalizing pieces with
  | case1 => exact (Option.some.inj h).symm
  | case2 | case4 => exact absurd h (by simp)
  | case6 depth c rest _ _ hsplit =>
    rw [eq_of_beq (Bool.and_eq_true_iff.1 hsplit).1] at hcomma
    exact absurd List.mem_cons_self hcomma
  | case3 | case5 | case7 =>
    rename_i ih
    obtain ⟨ps, hps, rfl⟩ := Option.map_eq_some_iff.1 h
    rw [ih hps fun hmem => hcomma (List.mem_cons_of_mem _ hmem)]
    rfl

theorem exists_of_map_pushFirst {c : Char} {x : Option (List (List Char))} {piece : List Char}
    {pieces : List (List Char)} (h : x.map (pushFirst c) = some (piece :: pieces)) :
    (x = some [] ∧ piece = [c] ∧ pieces = []) ∨ ∃ p, x = some (p :: pieces) ∧ piece = c :: p := by
  obtain ⟨_ | ⟨p, ps⟩, rfl, heq⟩ := Option.map_eq_some_iff.1 h
  · obtain ⟨rfl, rfl⟩ := List.cons.inj heq
    exact .inl ⟨rfl, rfl, rfl⟩
  · obtain ⟨rfl, rfl⟩ := List.cons.inj heq
    exact .inr ⟨p, rfl, rfl⟩

/-- A comma stands in a piece only if a bracket is opened in it, or, in the first one, was open
before. -/
theorem exists_opensBracket_of_splitOperands {depth : Nat} {piece : List Char}
    {pieces : List (List Char)} (h : splitOperands depth cs = some (piece :: pieces)) :
    (depth = 0 → ',' ∈ piece → ∃ c ∈ piece, opensBracket c = true) ∧
      ∀ p ∈ pieces, ',' ∈ p → ∃ c ∈ p, opensBracket c = true := by
  -- One case for each step of the scan. A comma outside of brackets ends a piece, so one within a
  -- piece stands in brackets.
  fun_induction splitOperands depth cs generalizing piece pieces with
  | case1 =>
    obtain ⟨rfl, rfl⟩ := List.cons.inj (Option.some.inj h)
    simp
  | case2 | case4 => exact absurd h (by simp)
  | case3 depth c rest hopen ih =>
    obtain ⟨_, rfl, rfl⟩ | ⟨p, hp, rfl⟩ := exists_of_map_pushFirst h
    · simp [hopen]
    · exact ⟨fun _ _ => ⟨c, by simp, hopen⟩, (ih hp).2⟩
  | case5 c rest _ _ depth ih =>
    obtain ⟨_, rfl, rfl⟩ | ⟨p, hp, rfl⟩ := exists_of_map_pushFirst h
    · simp
    · exact ⟨by simp, (ih hp).2⟩
  | case6 depth c rest _ _ _ ih =>
    obtain ⟨ps, hps, heq⟩ := Option.map_eq_some_iff.1 h
    obtain ⟨rfl, rfl⟩ := List.cons.inj heq
    refine ⟨by simp, ?_⟩
    cases ps with
    | nil => simp
    | cons p ps =>
      obtain ⟨hfirst, hrest⟩ := ih hps
      exact List.forall_mem_cons.2 ⟨hfirst rfl, hrest⟩
  | case7 depth c rest _ _ hkeep ih =>
    have hc : depth = 0 → c ≠ ',' := by
      rintro rfl rfl
      exact hkeep rfl
    obtain ⟨_, rfl, rfl⟩ | ⟨p, hp, rfl⟩ := exists_of_map_pushFirst h
    · refine ⟨fun hdepth hmem => ?_, by simp⟩
      exact absurd (List.mem_singleton.1 hmem).symm (hc hdepth)
    · obtain ⟨hfirst, hrest⟩ := ih hp
      refine ⟨fun hdepth hmem => ?_, hrest⟩
      rcases List.mem_cons.1 hmem with hmem | hmem
      · exact absurd hmem.symm (hc hdepth)
      · obtain ⟨d, hd, hopen⟩ := hfirst hdepth hmem
        exact ⟨d, List.mem_cons_of_mem _ hd, hopen⟩

/-- Only text whose brackets match in number is split. -/
theorem countP_of_splitOperands {depth : Nat} {pieces : List (List Char)}
    (h : splitOperands depth cs = some pieces) :
    depth + cs.countP opensBracket = cs.countP closesBracket := by
  fun_induction splitOperands depth cs generalizing pieces with
  | case1 => rfl
  | case2 => exact absurd h (by simp)
  | case3 depth c rest hopen ih =>
    obtain ⟨_, hrest, _⟩ := Option.map_eq_some_iff.1 h
    have := ih hrest
    rw [List.countP_cons_of_pos hopen,
      List.countP_cons_of_neg (by simp [closesBracket_of_opensBracket hopen])]
    omega
  | case4 => exact absurd h (by simp)
  | case5 c rest hopen hclose depth ih =>
    obtain ⟨_, hrest, _⟩ := Option.map_eq_some_iff.1 h
    have := ih hrest
    rw [List.countP_cons_of_neg hopen, List.countP_cons_of_pos hclose]
    omega
  | case6 depth c rest hopen hclose hcomma ih =>
    obtain ⟨_, hrest, _⟩ := Option.map_eq_some_iff.1 h
    obtain ⟨_, hdepth⟩ := Bool.and_eq_true_iff.1 hcomma
    rw [List.countP_cons_of_neg hopen, List.countP_cons_of_neg hclose, eq_of_beq hdepth]
    exact ih hrest
  | case7 depth c rest hopen hclose _ ih =>
    obtain ⟨_, hrest, _⟩ := Option.map_eq_some_iff.1 h
    rw [List.countP_cons_of_neg hopen, List.countP_cons_of_neg hclose]
    exact ih hrest

end Term

end NonAxiomatic
