import NonAxiomatic.Proofs.Places
import NonAxiomatic.Sliced

/-!
# Terms are read by places without a fault

A term is read from characters of one byte, so that a place is between characters wherever it is in
range. That it is in range, and in order, rests on what was found there. A copula stands in front of
the bracket that ends its statement, because there is no bracket in a copula. A connector is as wide
as the text in front of its divider, and an operand ends at a comma behind the one before it.

A reader that comes to no fault, and to the same outcome as the reader without places, `Gives` that
outcome. Both searches are followed step by step, with what they are still to come to kept the same:
the last copula (`CopulaScan.last`), and the pieces between commas (`OperandScan.pieces?`).

* `Sliced.topCopula?_eq`, `Sliced.gives_splitOperands`: what the searches come to.
* `Sliced.gives_readStatement`, `Sliced.gives_readCompound`, `Sliced.gives_readVariable`: the kinds
  of terms that have parts, with the reader of the parts left open.
* `Sliced.gives_parseChars`: terms of any kind.
-/

namespace NonAxiomatic

namespace Sliced

open Text

variable {α β : Type}

/-! ## Reading without a fault -/

/-- Reading comes to no fault, and to this outcome. -/
def Gives (x : Reading α) (outcome : Except SyntaxError α) : Prop := x.run = .ok outcome

namespace Gives

variable {x : Reading α} {y : Except SyntaxError α} {f : α → Reading β}
  {g : α → Except SyntaxError β}

theorem bind (h : Gives x y) (hf : ∀ a, y = .ok a → Gives (f a) (g a)) :
    Gives (x >>= f) (y >>= g) := by
  rw [Gives, ExceptT.run_bind, h]
  cases y with
  | error e => rfl
  | ok a => exact hf a rfl

/-- What is certain to be read. -/
theorem bind_ok {a : α} {z : Except SyntaxError β} (h : Gives x (.ok a)) (hf : Gives (f a) z) :
    Gives (x >>= f) z := by
  rw [Gives, ExceptT.run_bind, h]
  exact hf

theorem bind_error {e : SyntaxError} (h : Gives x (.error e)) : Gives (x >>= f) (.error e) := by
  rw [Gives, ExceptT.run_bind, h]
  rfl

theorem lift {a : α} {e : Except Fault α} (h : e = .ok a) : Gives (liftM e) (.ok a) := by
  rw [h]
  rfl

theorem of_except (y : Except SyntaxError α) : Gives (liftM y) y := rfl

theorem map {h : α → β} (hx : Gives x y) : Gives (h <$> x) (h <$> y) := by
  rw [Gives, ExceptT.run_map, hx]
  rfl

theorem mapM {x : β → Reading α} {y : β → Except SyntaxError α} {bs : List β}
    (h : ∀ b ∈ bs, Gives (x b) (y b)) : Gives (bs.mapM x) (bs.mapM y) := by
  induction bs with
  | nil => rfl
  | cons b bs ih =>
    rw [List.mapM_cons, List.mapM_cons]
    refine (h b List.mem_cons_self).bind fun a _ => ?_
    exact (ih fun c hc => h c (List.mem_cons_of_mem b hc)).bind fun _ _ => rfl

/-- What is refused on either way has to go on only where it is not. -/
theorem guard {c : Prop} [Decidable c] {e : SyntaxError} {x : Reading α}
    {g : PUnit → Except SyntaxError α} (h : ¬c → Gives x (g ⟨⟩)) :
    Gives (if c then throw e else x) (if c then throw e >>= g else g ⟨⟩) := by
  by_cases hc : c
  · rw [if_pos hc, if_pos hc]
    rfl
  · rw [if_neg hc, if_neg hc]
    exact h hc

end Gives

/-! ## Finding the copula -/

/-- What the readers presuppose of a text: each character is one byte, and all of them can be
counted with a sign in 32 bits. -/
structure Readable (text : List Char) : Prop where
  ascii : IsAscii text
  length_lt : text.length < 0x80000000

theorem Readable.sublist {text part : List Char} (h : Readable text) (hsub : part.Sublist text) :
    Readable part :=
  ⟨h.ascii.subset hsub.subset, Nat.lt_of_le_of_lt hsub.length_le h.length_lt⟩

section
variable {text before rest : List Char} {c : Char} {s : CopulaScan}

/-- Where three characters are left, these are the slice that is looked up. -/
theorem slice_window (h : IsAscii text) (htext : text = before ++ c :: rest)
    (hplace : s.place = before.length) (hle : s.place + 3 ≤ byteCount text) :
    slice text s.place (s.place + 3) = .ok (c :: rest.take 2) := by
  rw [h.byteCount_eq] at hle
  rw [h.slice_eq (Nat.le_add_right _ 3) hle, htext, hplace, List.take_length_add_append,
    List.drop_left]
  rfl

/-- Fewer than three characters are no copula. -/
theorem ofSymbol?_short (h : IsAscii text) (htext : text = before ++ c :: rest)
    (hplace : s.place = before.length) (hlt : ¬s.place + 3 ≤ byteCount text) :
    Copula.ofSymbol? (c :: rest.take 2) = none := by
  rw [h.byteCount_eq, htext, List.length_append, List.length_cons, hplace] at hlt
  cases hk : Copula.ofSymbol? (c :: rest.take 2) with
  | none => rfl
  | some k =>
    have hlength := congrArg List.length (Copula.symbol_of_ofSymbol? hk)
    rw [Copula.length_symbol, List.length_cons, List.length_take] at hlength
    omega

namespace CopulaScan

/-- The last copula of all, if `rest` is still to be searched. -/
def last (s : CopulaScan) (rest : List Char) : Option (Nat × Copula) :=
  (Term.copulasFrom s.place s.depth rest).getLast?.or s.found

/-- A byte moves the search on by one place, and what it comes to stays the same. -/
def Moves (text : List Char) (s : CopulaScan) (c : Char) (rest : List Char) : Prop :=
  ∃ s', feed text s c.val.toUInt8 = .ok s' ∧ s'.place = s.place + 1 ∧
    s'.depth.natAbs ≤ s.depth.natAbs + 1 ∧ s'.last rest = s.last (c :: rest)

theorem moves_of_ne (h : IsAscii text) (htext : text = before ++ c :: rest)
    (hplace : s.place = before.length) (hopen : c ≠ '(') (hclose : c ≠ ')') :
    Moves text s c rest := by
  have hc : Char.ofNat c.val.toUInt8.toNat = c := ofNat_byte (h c (by simp [htext]))
  have hstay : (s.depth = 1 → Copula.ofSymbol? (c :: rest.take 2) = none) →
      ({ s with place := s.place + 1 } : CopulaScan).last rest = s.last (c :: rest) := by
    intro hnone
    rw [last, last, Term.copulasFrom_cons_of_none hopen hclose hnone]
  rw [Moves, feed, hc]
  simp only [beq_iff_eq, hopen, hclose, if_false, Bool.and_eq_true, decide_eq_true_eq]
  split
  · rename_i hcond
    have hwindow := slice_window h htext hplace hcond.2
    cases hk : Copula.ofSymbol? (c :: rest.take 2) with
    | none =>
      refine ⟨{ s with place := s.place + 1 }, ?_, rfl, Nat.le_succ _, hstay fun _ => hk⟩
      exact bind_eq_ok.2 ⟨_, hwindow, by rw [hk]; rfl⟩
    | some k =>
      refine ⟨{ s with place := s.place + 1, found := some (s.place, k) }, ?_, rfl,
        Nat.le_succ _, ?_⟩
      · exact bind_eq_ok.2 ⟨_, hwindow, by rw [hk]; rfl⟩
      · rw [last, last, hcond.1, Term.copulasFrom_cons_of_some hopen hclose hk, List.getLast?_cons,
          Option.or_some, Option.some_or]
  · rename_i hcond
    have hnone : s.depth = 1 → Copula.ofSymbol? (c :: rest.take 2) = none := fun hdepth =>
      ofSymbol?_short h htext hplace fun hle => hcond ⟨hdepth, hle⟩
    exact ⟨_, rfl, rfl, Nat.le_succ _, hstay hnone⟩

theorem moves (h : IsAscii text) (htext : text = before ++ c :: rest)
    (hplace : s.place = before.length) (hdepth : s.depth.natAbs + 1 < 0x80000000) :
    Moves text s c rest := by
  by_cases hopen : c = '('
  · subst hopen
    have hsigned : signed32 (s.depth + 1) = .ok (s.depth + 1) := signed32_eq_ok (by omega)
    exact ⟨_, bind_eq_ok.2 ⟨_, hsigned, rfl⟩, rfl, by dsimp; omega, rfl⟩
  · by_cases hclose : c = ')'
    · subst hclose
      have hsigned : signed32 (s.depth - 1) = .ok (s.depth - 1) := signed32_eq_ok (by omega)
      exact ⟨_, bind_eq_ok.2 ⟨_, hsigned, rfl⟩, rfl, by dsimp; omega, rfl⟩
    · exact moves_of_ne h htext hplace hopen hclose

theorem foldlM_feed (h : IsAscii text) (htext : text = before ++ rest)
    (hplace : s.place = before.length) (hdepth : s.depth.natAbs + rest.length < 0x80000000) :
    ∃ s', (bytes rest).foldlM (feed text) s = .ok s' ∧ s'.found = s.last rest := by
  have hrest : IsAscii rest := h.subset (by rw [htext]; exact List.subset_append_right before rest)
  rw [hrest.bytes_eq]
  induction rest generalizing before s with
  | nil => exact ⟨s, rfl, rfl⟩
  | cons c rest ih =>
    rw [List.length_cons] at hdepth
    obtain ⟨s', hfeed, hplace', hdepth', hlast⟩ := moves h htext hplace (by omega)
    have hbehind : text = before ++ [c] ++ rest := by simp [htext]
    have hnext : s'.place = (before ++ [c]).length := by rw [hplace', hplace]; simp
    obtain ⟨s'', hfold, hfound⟩ := ih hbehind hnext (by omega)
      (hrest.subset (List.subset_cons_self c rest))
    refine ⟨s'', ?_, hfound.trans hlast⟩
    rw [List.map_cons, List.foldlM_cons, hfeed]
    exact hfold

end CopulaScan

theorem topCopula?_eq (h : Readable text) : topCopula? text = .ok (Term.topCopula? text) := by
  obtain ⟨s, hfold, hfound⟩ := CopulaScan.foldlM_feed (s := {}) h.ascii
    (List.nil_append text).symm rfl (by simpa using h.length_lt)
  rw [topCopula?, hfold]
  show Except.ok s.found = _
  rw [hfound, CopulaScan.last, Option.or_none]
  rfl

end

/-! ## Finding the operands -/

section
variable {body piece rest : List Char} {c : Char} {depth : Nat} {s : OperandScan}

/-- The pieces of a body, which is refused where its brackets do not match in number. -/
def matched (body : List Char) : Option (List (List Char)) → Except SyntaxError (List (List Char))
  | some pieces => .ok pieces
  | none => .error (.unbalanced (String.ofList body))

/-- Where a search for operands stands: so many brackets are open, `piece` is what it has seen of
an operand, and `rest` what it has not seen of the body. -/
structure OperandScan.At (body : List Char) (s : OperandScan) (depth : Nat)
    (piece rest : List Char) : Prop where
  depth : s.depth = depth
  places : ∃ done, body = done ++ piece ++ rest ∧ s.start = byteCount done ∧
    s.place = byteCount (done ++ piece)

/-- What a search for operands comes to. -/
def OperandScan.pieces? (s : OperandScan) (depth : Nat) (piece rest : List Char) :
    Option (List (List Char)) :=
  (Term.splitOperands depth rest).map fun pieces => s.pieces ++ Term.pushAll piece pieces

namespace OperandScan

/-- A character that ends no operand is seen. -/
theorem At.next (h : s.At body depth piece (c :: rest)) (depth' : Nat) :
    At body { s with place := s.place + c.utf8Size, depth := depth' } depth' (piece ++ [c])
      rest := by
  obtain ⟨-, done, hbody, hstart, hplace⟩ := h
  refine ⟨rfl, done, by simp [hbody], hstart, ?_⟩
  show s.place + c.utf8Size = _
  rw [hplace, ← List.append_assoc, byteCount_append (done ++ piece), byteCount_cons, byteCount_nil,
    Nat.add_zero]

theorem pieces?_next {s' : OperandScan} {depth' : Nat} (hpieces : s'.pieces = s.pieces)
    (h : Term.splitOperands depth (c :: rest) =
      (Term.splitOperands depth' rest).map (Term.pushFirst c)) :
    s'.pieces? depth' (piece ++ [c]) rest = s.pieces? depth piece (c :: rest) := by
  rw [pieces?, pieces?, hpieces, h, Option.map_map]
  congr 1
  funext pieces
  show _ ++ (piece ++ [c]).foldr Term.pushFirst pieces = _
  rw [List.foldr_append]
  rfl

theorem gives_finish (h : s.At body depth piece []) :
    Gives (finish body s) (matched body (s.pieces? depth piece [])) := by
  obtain ⟨hdepth, done, hbody, hstart, -⟩ := h
  cases depth with
  | zero =>
    rw [List.append_nil] at hbody
    have hslice : sliceFrom body s.start = .ok piece := by
      rw [hbody, hstart]
      exact sliceFrom_append done piece
    have hpieces : s.pieces? 0 piece [] = some (s.pieces ++ [piece]) := by
      rw [pieces?, Term.splitOperands, Option.map_some, Term.pushAll_cons, List.append_nil]
    rw [hpieces, finish, if_neg (by simp [hdepth])]
    exact (Gives.lift hslice).bind_ok rfl
  | succ depth =>
    rw [finish, if_pos (by simp [hdepth]; omega)]
    rfl

/-- A character moves the search on, and the pieces it comes to stay the same. -/
def Moves (body : List Char) (s : OperandScan) (depth : Nat) (piece : List Char) (c : Char)
    (rest : List Char) : Prop :=
  ∃ s' depth' piece', Gives (feed body s c) (.ok s') ∧ s'.At body depth' piece' rest ∧
    depth' ≤ depth + 1 ∧ s'.pieces? depth' piece' rest = s.pieces? depth piece (c :: rest)

theorem moves_open (h : s.At body depth piece (c :: rest)) (hopen : Term.opensBracket c = true)
    (hdepth : depth + 1 < 0x80000000) : Moves body s depth piece c rest := by
  have hsigned : signed32 (s.depth + 1) = .ok ((depth + 1 : Nat) : Int) := by
    have hs := h.depth
    rw [signed32_eq_ok (by omega), hs]
    rfl
  refine ⟨_, depth + 1, _, ?_, h.next (depth + 1), Nat.le_refl _,
    pieces?_next rfl (Term.splitOperands_open hopen depth rest)⟩
  rw [feed, if_pos hopen]
  exact (Gives.lift hsigned).bind_ok rfl

theorem moves_close (h : s.At body (depth + 1) piece (c :: rest))
    (hopen : Term.opensBracket c = false) (hclose : Term.closesBracket c = true)
    (hdepth : depth < 0x80000000) : Moves body s (depth + 1) piece c rest := by
  have hsigned : signed32 (s.depth - 1) = .ok (depth : Int) := by
    have hs := h.depth
    rw [signed32_eq_ok (by omega)]
    exact congrArg Except.ok (by omega)
  refine ⟨_, depth, _, ?_, h.next depth, by omega,
    pieces?_next rfl (Term.splitOperands_close hopen hclose depth rest)⟩
  rw [feed, if_neg (by simp [hopen]), if_pos hclose]
  refine (Gives.lift hsigned).bind_ok ?_
  rw [if_neg (by omega)]
  rfl

/-- A bracket that closes none is refused, as it is where pieces are cut off from a list. -/
theorem gives_feed_close (h : s.At body 0 piece (c :: rest)) (hopen : Term.opensBracket c = false)
    (hclose : Term.closesBracket c = true) :
    Gives (feed body s c) (.error (.unbalanced (String.ofList body))) ∧
      s.pieces? 0 piece (c :: rest) = none := by
  have hs := h.depth
  constructor
  · rw [feed, if_neg (by simp [hopen]), if_pos hclose]
    refine (Gives.lift (signed32_eq_ok (by omega))).bind_ok ?_
    rw [if_pos (by omega)]
    rfl
  · rw [pieces?, Term.splitOperands, if_neg (by simp [hopen]), if_pos hclose]
    rfl

/-- A comma outside of all brackets ends a piece, and the next one begins behind it. -/
theorem moves_comma (h : s.At body 0 piece (',' :: rest)) : Moves body s 0 piece ',' rest := by
  obtain ⟨hs, done, hbody, hstart, hplace⟩ := h
  have hslice : slice body s.start s.place = .ok piece := by
    rw [hbody, hstart, hplace, byteCount_append]
    exact slice_append done piece (',' :: rest)
  have hbehind : s.place + 1 = byteCount (done ++ piece ++ [',']) := by
    rw [hplace, byteCount_concat rfl]
  refine ⟨⟨s.place + 1, s.place + 1, s.depth, s.pieces ++ [piece]⟩, 0, [], ?_,
    ⟨hs, done ++ piece ++ [','], by simp [hbody], hbehind, by rwa [List.append_nil]⟩,
    Nat.zero_le _, ?_⟩
  · rw [feed, if_neg (by decide), if_neg (by decide), if_pos (by simp [hs])]
    exact (Gives.lift hslice).bind_ok rfl
  · rw [pieces?, pieces?, Term.splitOperands_comma, Option.map_map]
    congr 1
    funext pieces
    show s.pieces ++ [piece] ++ pieces = s.pieces ++ Term.pushAll piece ([] :: pieces)
    rw [Term.pushAll_cons, List.append_nil, List.append_assoc]
    rfl

theorem moves_keep (h : s.At body depth piece (c :: rest)) (hopen : Term.opensBracket c = false)
    (hclose : Term.closesBracket c = false) (hcomma : ¬(c = ',' ∧ depth = 0)) :
    Moves body s depth piece c rest := by
  have hkeep : (c == ',' && depth == 0) = false := by simpa using hcomma
  have hs := h.depth
  refine ⟨_, depth, _, ?_, h.next depth, by omega,
    pieces?_next rfl (Term.splitOperands_keep hopen hclose hkeep rest)⟩
  rw [feed, if_neg (by simp [hopen]), if_neg (by simp [hclose]),
    if_neg (by simpa [hs] using hcomma), ← hs]
  rfl

/-- One character either refuses the body, or moves the search on. -/
theorem gives_feed (h : s.At body depth piece (c :: rest)) (hdepth : depth + 1 < 0x80000000) :
    (Gives (feed body s c) (.error (.unbalanced (String.ofList body))) ∧
      s.pieces? depth piece (c :: rest) = none) ∨ Moves body s depth piece c rest := by
  cases hopen : Term.opensBracket c with
  | true => exact .inr (moves_open h hopen hdepth)
  | false =>
    cases hclose : Term.closesBracket c with
    | true =>
      cases depth with
      | zero => exact .inl (gives_feed_close h hopen hclose)
      | succ depth => exact .inr (moves_close h hopen hclose (by omega))
    | false =>
      by_cases hcomma : c = ',' ∧ depth = 0
      · obtain ⟨rfl, rfl⟩ := hcomma
        exact .inr (moves_comma h)
      · exact .inr (moves_keep h hopen hclose hcomma)

theorem gives_foldlM (h : s.At body depth piece rest)
    (hdepth : depth + rest.length < 0x80000000) :
    Gives (rest.foldlM (feed body) s >>= finish body)
      (matched body (s.pieces? depth piece rest)) := by
  induction rest generalizing s depth piece with
  | nil => exact gives_finish h
  | cons c rest ih =>
    rw [List.length_cons] at hdepth
    rw [List.foldlM_cons, bind_assoc]
    obtain ⟨hfeed, hnone⟩ | ⟨s', depth', piece', hfeed, hat, hle, hpieces⟩ :=
      gives_feed h (by omega)
    · rw [hnone]
      exact hfeed.bind (g := fun _ => matched body none) fun _ ha => absurd ha (by simp)
    · rw [← hpieces]
      exact hfeed.bind_ok (ih hat (by omega))

end OperandScan

theorem gives_splitOperands (h : body.length < 0x80000000) :
    Gives (splitOperands body) (matched body (Term.splitOperands 0 body)) := by
  have hstart : OperandScan.At body {} 0 [] body := ⟨rfl, [], rfl, rfl, rfl⟩
  have hall := OperandScan.gives_foldlM hstart (by omega)
  have hpieces : OperandScan.pieces? {} 0 [] body = Term.splitOperands 0 body :=
    congrFun Option.map_id _
  rwa [hpieces] at hall

end

/-! ## Reading the parts -/

section
variable {text part rest : List Char} {depth : Nat} {read : List Char → Reading Term}
  {read' : List Char → Except SyntaxError Term}

theorem isSelf_eq (t : Term) : isSelf t = .ok t.isSelf := by
  unfold isSelf
  split
  · rename_i operands _
    match operands with
    | [] | [_] | _ :: _ :: _ => rfl
  · rename_i hne
    rw [Term.isSelf]
    exact fun operand => hne [operand]

/-- What is found out about a statement is whether it can be carried out. -/
theorem relate_eq (subject : Term) (copula : Copula) (predicate : Term) (interval : UInt32) :
    relate subject copula predicate interval =
      .ok (Term.relate subject copula predicate interval,
        (Term.relate subject copula predicate interval).isOperation) := by
  have hstatement : ∃ s p, Term.relate subject copula predicate interval =
      .statement s copula p interval := by
    unfold Term.relate
    split <;> exact ⟨_, _, rfl⟩
  obtain ⟨s, p, heq⟩ := hstatement
  rw [relate, heq]
  split
  · rename_i first _ _ _ _ _ hterm
    cases hterm
    rw [isSelf_eq, Term.isOperation]
    rfl
  · rename_i hne
    rw [Term.isOperation]
    · rfl
    · rintro first operands intervals rfl
      exact hne _ _ _ _ _ _ rfl

/-- The copula that is found stands between the two brackets of its statement. -/
theorem place_of_topCopula? {place : Nat} {copula : Copula} (hfirst : text.head? = some '(')
    (hlast : text.getLast? = some ')') (h : Term.topCopula? text = some (place, copula)) :
    1 ≤ place ∧ place + 4 ≤ text.length := by
  have hmem := List.mem_of_getLast? h
  obtain ⟨-, hsymbol⟩ := Term.copulasFrom_symbol hmem
  rw [Nat.sub_zero] at hsymbol
  have hlength := congrArg List.length hsymbol
  rw [Copula.length_symbol, List.length_take, List.length_drop] at hlength
  constructor
  · obtain ⟨rest, rfl⟩ := List.head?_eq_some_iff.1 hfirst
    rw [Term.copulasFrom_open] at hmem
    exact (Term.copulasFrom_symbol hmem).1
  · -- Its last character is not the bracket that ends the text.
    by_contra hend
    have hall : text.drop place = copula.symbol.toList := by
      rw [← hsymbol, List.take_of_length_le (by rw [List.length_drop]; omega)]
    have hclose : (text.drop place).getLast? = some ')' := by
      rw [List.getLast?_drop, if_neg (by omega), hlast]
    rw [hall] at hclose
    exact (copula.ne_bracket ')' (List.mem_of_getLast? hclose)).2 rfl

theorem gives_readStatement {place : Nat} {copula : Copula} (h : Readable text)
    (hread : ∀ part, Readable part → Gives (read part) (read' part)) (hplace : 1 ≤ place)
    (hend : place + 4 ≤ text.length) :
    Gives (readStatement read text place copula) (Term.readStatement read' text place copula) := by
  have hback : back (byteCount text) 1 = .ok (text.length - 1) := by
    rw [h.ascii.byteCount_eq]
    exact back_eq_ok (by omega)
  have hpredicate : slice text (place + 3) (text.length - 1) =
      .ok ((text.drop (place + 3)).dropLast) := by
    rw [h.ascii.slice_eq (by omega) (by omega), List.dropLast_eq_take, List.drop_take,
      List.length_drop]
    congr 2
    omega
  unfold readStatement Term.readStatement
  extract_lets subjectText predicateText finish
  refine (Gives.lift (h.ascii.slice_eq hplace (by omega))).bind_ok ?_
  refine (Gives.lift hback).bind_ok ((Gives.lift hpredicate).bind_ok ?_)
  refine Gives.guard fun _ => ?_
  refine (hread _ (h.sublist ((List.drop_sublist _ _).trans (List.take_sublist _ _)))).bind
    fun subject _ => ?_
  refine (hread _ (h.sublist ((List.dropLast_sublist _).trans (List.drop_sublist _ _)))).bind
    fun predicate _ => ?_
  exact (Gives.lift (relate_eq subject copula predicate _)).bind_ok rfl

theorem gives_readOperand {token : List Char} (whole : String)
    (hread : Gives (read token) (read' token)) :
    Gives (readOperand read whole token) (Term.readOperand read' whole token) := by
  unfold readOperand Term.readOperand
  split
  · rfl
  · split
    · cases word? UInt32.size token <;> rfl
    · exact hread.map

/-- The divider behind a connector is found at its place, and the operands behind it. -/
theorem gives_body {inner : List Char} {width : Nat} (h : IsAscii inner) (connector : Connector)
    (whole : String) :
    Gives (if byteAt? inner width != some ',' then throw (.unseparatedConnector whole)
        else do return (connector, ← sliceFrom inner (width + 1)))
      (match inner.drop width with
        | ',' :: body => return (connector, body)
        | _ => throw (.unseparatedConnector whole)) := by
  rw [h.byteAt?_eq, ← List.head?_drop]
  cases hdrop : inner.drop width with
  | nil => rfl
  | cons c body =>
    have hlong : width + 1 ≤ inner.length := by
      have := congrArg List.length hdrop
      rw [List.length_drop, List.length_cons] at this
      omega
    have hbody : sliceFrom inner (width + 1) = .ok body := by
      rw [h.sliceFrom_eq hlong, ← List.tail_drop, hdrop, List.tail_cons]
    by_cases hc : c = ','
    · subst hc
      exact (Gives.lift hbody).bind_ok rfl
    · rw [List.head?_cons, if_pos (by simpa using hc)]
      split
      · rename_i heq
        exact absurd (List.cons.inj heq).1 hc
      · rfl

theorem gives_splitConnector {inner : List Char} (h : IsAscii inner) (whole : String) :
    Gives (splitConnector inner whole) (Term.splitConnector inner whole) := by
  unfold splitConnector Term.splitConnector
  extract_lets withWidth withWidth'
  have hwidth : ∀ width ≤ inner.length, Gives (withWidth width) (withWidth' width) := by
    intro width hle
    simp only [withWidth, withWidth']
    refine (Gives.lift (h.sliceTo_eq hle)).bind_ok ?_
    cases (Connector.ofSymbol? (inner.take width)).filter fun c => !c.isSet with
    | none => rfl
    | some connector => exact gives_body h connector whole
  rw [h.byteAt?_eq]
  cases inner with
  | nil => rfl
  | cons a inner =>
    cases inner with
    | nil => rfl
    | cons b body =>
      by_cases hb : b = ','
      · subst hb
        exact hwidth 1 (by simp)
      · have htwo : (if b == ',' then 1 else 2) = 2 := if_neg (by simpa using hb)
        show Gives (withWidth (if b == ',' then 1 else 2)) _
        rw [htwo]
        split
        · rename_i heq
          exact absurd (List.cons.inj (List.cons.inj heq).2).1 hb
        · exact hwidth 2 (by simp)
        · rename_i hne
          exact absurd rfl (hne a b body)

/-- What stands between two commas is part of a readable text. -/
theorem Readable.piece {pieces : List (List Char)} {piece : List Char}
    (h : Readable ([','].intercalate pieces)) (hpiece : piece ∈ pieces) : Readable piece :=
  ⟨fun _ hc => h.ascii _ (mem_intercalate hpiece hc),
    Nat.lt_of_le_of_lt (length_le_intercalate [','] hpiece) h.length_lt⟩

/-- The operands of a compound, all read, make it up. -/
theorem gives_operands {body : List Char} (h : Readable body)
    (hread : ∀ part, Readable part → Gives (read part) (read' part)) (connector : Connector)
    (whole : String) :
    Gives (do
        let operands ← (← splitOperands body).mapM (readOperand read whole)
        let terms := operands.filterMap Term.Operand.term?
        if terms.isEmpty then throw (.noOperands whole)
        else return Term.compose connector terms (operands.filterMap Term.Operand.gap?))
      (match Term.splitOperands 0 body with
        | none => throw (.unbalanced (String.ofList body))
        | some tokens => do
          let operands ← tokens.mapM (Term.readOperand read' whole)
          let terms := operands.filterMap Term.Operand.term?
          if terms.isEmpty then throw (.noOperands whole)
          return Term.compose connector terms (operands.filterMap Term.Operand.gap?)) := by
  have hsplit := gives_splitOperands h.length_lt
  cases hpieces : Term.splitOperands 0 body with
  | none =>
    rw [hpieces] at hsplit
    exact hsplit.bind (g := fun _ => throw (.unbalanced (String.ofList body))) fun _ ha =>
      absurd ha (by simp [matched])
  | some tokens =>
    rw [hpieces] at hsplit
    have htoken : ∀ token ∈ tokens, Readable token := fun token hmem =>
      Readable.piece (by rwa [(Term.intercalate_splitOperands hpieces).2]) hmem
    refine hsplit.bind_ok ?_
    have htokens := Gives.mapM fun token hmem =>
      gives_readOperand whole (hread token (htoken token hmem))
    exact htokens.bind fun operands _ => Gives.guard fun _ => rfl

theorem gives_readCompound (h : Readable text) (hne : text ≠ [])
    (hread : ∀ part, Readable part → Gives (read part) (read' part)) :
    Gives (readCompound read text) (Term.readCompound read' text) := by
  obtain ⟨first, rest, rfl⟩ := List.exists_cons_of_ne_nil hne
  unfold readCompound Term.readCompound
  extract_lets whole finish inner finish' check
  rw [h.ascii.byteCount_eq]
  refine Gives.guard fun hshort => ?_
  have hlong : 2 ≤ (first :: rest).length := Nat.not_lt.1 hshort
  have hslice : slice (first :: rest) 1 ((first :: rest).length - 1) = .ok inner := by
    rw [h.ascii.slice_eq (by omega) (Nat.sub_le _ 1), ← List.dropLast_eq_take, List.drop_one,
      List.tail_dropLast]
  have hinner : Readable inner := h.sublist ((List.dropLast_sublist _).trans (List.tail_sublist _))
  refine (Gives.lift (back_eq_ok (by omega))).bind_ok ((Gives.lift hslice).bind_ok ?_)
  have hfinish : ∀ connector body, Readable body →
      Gives (finish (connector, body)) (finish' (connector, body)) :=
    fun connector body hbody => gives_operands hbody hread connector whole
  simp only [check, List.head?_cons, Option.getD_some, Option.bind_some]
  cases hset : Connector.ofBracket? first with
  | none =>
    refine (gives_splitConnector hinner.ascii whole).bind fun parts hsplit => ?_
    obtain ⟨connector, body⟩ := parts
    have hbody : (connector.symbol.toList ++ ',' :: body) = inner :=
      (Term.splitConnector_eq_ok.1 hsplit).2.symm
    exact hfinish connector body (hinner.sublist (hbody ▸
      (List.sublist_cons_self ',' body).trans (List.sublist_append_right _ _)))
  | some set =>
    dsimp only
    split
    · exact hfinish set inner hinner
    · rfl

theorem gives_readVariable (symbol : Char) (h : Readable (symbol :: rest))
    (hread : ∀ part, Readable part → Gives (read part) (read' part)) :
    Gives (readVariable read symbol (symbol :: rest)) (Term.readVariable read' symbol rest) := by
  unfold readVariable Term.readVariable
  extract_lets finish finish'
  refine (Gives.lift (h.ascii.sliceFrom_eq (Nat.le_add_left 1 _))).bind_ok ?_
  have hfinish : ∀ parts, Gives (finish parts) (finish' parts) := fun _ => Gives.of_except _
  rw [List.drop_one, List.tail_cons, placeOf?_eq]
  cases hopen : cutFirst? '(' rest with
  | none => exact hfinish (rest, [])
  | some parts =>
    obtain ⟨name, list⟩ := parts
    obtain rfl := eq_of_cutFirst? hopen
    simp only [Option.map_some, lastPlaceOf?_behind (x := '(') rfl]
    cases hclose : cutLast? ')' list with
    | none => rfl
    | some parts =>
      obtain ⟨inner, behind⟩ := parts
      obtain rfl := eq_of_cutLast? hclose
      have hinner : Readable inner :=
        h.sublist ((((List.sublist_append_left inner _).cons '(').trans
          (List.sublist_append_right name _)).cons symbol)
      have hpiece : ∀ piece ∈ (split ',' inner).filter fun d => !d.isEmpty, Readable piece :=
        fun piece hmem => Readable.piece (by rwa [Term.intercalate_split])
          (List.mem_filter.1 hmem).1
      refine (Gives.lift (slice_behind rfl name inner _)).bind_ok ?_
      refine (Gives.mapM fun piece hmem => hread piece (hpiece piece hmem)).bind
        fun dependencies _ => ?_
      exact (Gives.lift (sliceTo_append name _)).bind_ok (hfinish (name, dependencies))

theorem gives_readAt (h : Readable text) (depth : Nat) :
    Gives (readAt depth text) (Term.readAt depth text) := by
  induction depth generalizing text with
  | zero => rfl
  | succ depth ih =>
    cases text with
    | nil => rfl
    | cons first rest =>
      have hread : ∀ part, Readable part → Gives (readAt depth part) (Term.readAt depth part) :=
        fun _ hpart => ih hpart
      have hcompound := gives_readCompound h (List.cons_ne_nil first rest) hread
      simp only [readAt, Term.readAt, List.head?_cons]
      split
      · rename_i hfirst
        split
        · rfl
        · rename_i hlast
          refine (Gives.lift (topCopula?_eq h)).bind_ok ?_
          cases htop : Term.topCopula? (first :: rest) with
          | none => exact hcompound
          | some found =>
            obtain ⟨hplace, hend⟩ := place_of_topCopula? (by rw [eq_of_beq hfirst]; rfl)
              (by simpa using hlast) htop
            exact gives_readStatement h hread hplace hend
      · split
        · exact hcompound
        · split
          · exact gives_readVariable first h hread
          · exact Gives.of_except _

theorem gives_parseChars (text : List Char) : Gives (parseChars text) (Term.parseChars text) := by
  unfold parseChars Term.parseChars
  extract_lets count
  have hcount : count = byteCount text := utf8ByteSize_ofList text
  rw [hcount]
  split
  · rfl
  · rename_i hshort
    cases hfind : text.find? fun c => 0x80 ≤ c.toNat with
    | some c => rfl
    | none =>
      have hascii : IsAscii text := by
        intro c hc
        have := List.find?_eq_none.1 hfind c hc
        simpa using this
      have htext : Readable text := ⟨hascii, by
        rw [hascii.byteCount_eq, SyntaxError.maxSentenceBytes] at hshort
        omega⟩
      exact gives_readAt (htext.sublist List.filter_sublist) _

end

end Sliced

end NonAxiomatic
