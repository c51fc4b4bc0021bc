/-!
# Text

Texts are lists of characters. They are cut at separators, into lines and at their blank ends, and
read as whole numbers.

* `compact_compact`: compacted text holds nothing more to leave out.
* `eq_of_cutFirst?`, `eq_of_cutLast?`, `eq_of_cutWord?`: the two pieces and what separates them are
  the text.
* `cutFirst?_append`, `cutLast?_append`: two pieces with a separator between them are found again.
* `split_intercalate`: pieces with separators between them are found again.
* `not_mem_of_mem_lines`: no line holds a newline.
-/

namespace NonAxiomatic

/-! ## Blank characters

The characters that separate without meaning anything: the `White_Space` class of Unicode. Text
is read either with all of them left out (`compact`) or with those at its two ends cut off
(`trim`).
-/

namespace Text

/-- The characters of Unicode's `White_Space` class. -/
def isBlank (c : Char) : Bool :=
  let n := c.toNat
  (0x9 ≤ n && n ≤ 0xD) || n == 0x20 || n == 0x85 || n == 0xA0 || n == 0x1680 ||
    (0x2000 ≤ n && n ≤ 0x200A) || n == 0x2028 || n == 0x2029 || n == 0x202F || n == 0x205F ||
    n == 0x3000

def compact (text : List Char) : List Char :=
  text.filter fun c => !isBlank c

def trim (text : List Char) : List Char :=
  ((text.dropWhile isBlank).reverse.dropWhile isBlank).reverse

@[simp] theorem compact_compact (text : List Char) : compact (compact text) = compact text := by
  simp [compact]

/-! ## Cutting text

Cutting text at a separating character: into all the pieces between separators (`split`), or
into two at the first (`cutFirst?`) or the last one (`cutLast?`).
-/

variable {α : Type} [BEq α]

/-- The pieces between the separators; one more than there are separators. -/
def split (separator : α) : List α → List (List α)
  | [] => [[]]
  | c :: rest =>
    if c == separator then [] :: split separator rest
    else match split separator rest with
      | piece :: pieces => (c :: piece) :: pieces
      | [] => [[c]]

def cutFirst? (separator : α) : List α → Option (List α × List α)
  | [] => none
  | c :: rest =>
    if c == separator then some ([], rest)
    else (cutFirst? separator rest).map fun (before, after) => (c :: before, after)

def cutLast? (separator : α) : List α → Option (List α × List α)
  | [] => none
  | c :: rest =>
    match cutLast? separator rest with
    | some (before, after) => some (c :: before, after)
    | none => if c == separator then some ([], rest) else none

def afterLast (separator : α) (text : List α) : List α :=
  match cutLast? separator text with
  | some (_, after) => after
  | none => text

/-- What comes before and after the first place where `word` stands. -/
def cutWord? (word : List α) : List α → Option (List α × List α)
  | [] => if word.isEmpty then some ([], []) else none
  | c :: rest =>
    if word.isPrefixOf (c :: rest) then some ([], (c :: rest).drop word.length)
    else (cutWord? word rest).map fun (before, after) => (c :: before, after)

variable [LawfulBEq α]

theorem eq_of_cutFirst? {separator : α} {text before after : List α}
    (h : cutFirst? separator text = some (before, after)) :
    text = before ++ separator :: after := by
  induction text generalizing before after with
  | nil => simp [cutFirst?] at h
  | cons c rest ih =>
    simp only [cutFirst?] at h
    split at h
    · rename_i hc
      simp only [Option.some.injEq, Prod.mk.injEq] at h
      obtain ⟨rfl, rfl⟩ := h
      simp [eq_of_beq hc]
    · obtain ⟨⟨b, a⟩, hcut, heq⟩ := Option.map_eq_some_iff.1 h
      simp only [Prod.mk.injEq] at heq
      obtain ⟨rfl, rfl⟩ := heq
      simp [ih hcut]

theorem eq_of_cutLast? {separator : α} {text before after : List α}
    (h : cutLast? separator text = some (before, after)) :
    text = before ++ separator :: after := by
  induction text generalizing before after with
  | nil => simp [cutLast?] at h
  | cons c rest ih =>
    simp only [cutLast?] at h
    split at h
    · rename_i b a hcut
      simp only [Option.some.injEq, Prod.mk.injEq] at h
      obtain ⟨rfl, rfl⟩ := h
      simp [ih hcut]
    · split at h
      · rename_i hc
        simp only [Option.some.injEq, Prod.mk.injEq] at h
        obtain ⟨rfl, rfl⟩ := h
        simp [eq_of_beq hc]
      · simp at h

theorem cutFirst?_append {separator : α} {before : List α} (h : ∀ c ∈ before, c ≠ separator)
    (after : List α) :
    cutFirst? separator (before ++ separator :: after) = some (before, after) := by
  induction before with
  | nil => simp [cutFirst?]
  | cons c before ih =>
    have hc : (c == separator) = false := beq_false_of_ne (h c (by simp))
    have hrest := ih fun d hd => h d (by simp [hd])
    rw [List.cons_append, cutFirst?, hrest]
    simp [hc]

theorem cutFirst?_eq_none {separator : α} {text : List α} (h : ∀ c ∈ text, c ≠ separator) :
    cutFirst? separator text = none := by
  induction text with
  | nil => rfl
  | cons c text ih =>
    have hc : (c == separator) = false := beq_false_of_ne (h c (by simp))
    have hrest := ih fun d hd => h d (by simp [hd])
    rw [cutFirst?, hrest]
    simp [hc]

theorem cutLast?_eq_none {separator : α} {text : List α} (h : ∀ c ∈ text, c ≠ separator) :
    cutLast? separator text = none := by
  induction text with
  | nil => rfl
  | cons c text ih =>
    have hc : (c == separator) = false := beq_false_of_ne (h c (by simp))
    have hrest := ih fun d hd => h d (by simp [hd])
    rw [cutLast?, hrest]
    simp [hc]

theorem cutLast?_append {separator : α} {after : List α} (h : ∀ c ∈ after, c ≠ separator)
    (before : List α) :
    cutLast? separator (before ++ separator :: after) = some (before, after) := by
  induction before with
  | nil => simp [cutLast?, cutLast?_eq_none h]
  | cons c before ih => rw [List.cons_append, cutLast?, ih]

theorem cutLast?_concat (separator : α) (before : List α) :
    cutLast? separator (before ++ [separator]) = some (before, []) :=
  cutLast?_append (fun _ h => absurd h List.not_mem_nil) before

theorem eq_of_cutWord? {word text before after : List α}
    (h : cutWord? word text = some (before, after)) : text = before ++ word ++ after := by
  induction text generalizing before after with
  | nil =>
    simp only [cutWord?] at h
    split at h
    · rename_i hword
      cases h
      simpa using hword.symm
    · cases h
  | cons c rest ih =>
    simp only [cutWord?] at h
    split at h
    · rename_i hprefix
      cases h
      exact List.prefix_iff_eq_append.1 (List.isPrefixOf_iff_prefix.1 hprefix) |>.symm
    · obtain ⟨⟨b, a⟩, hcut, heq⟩ := Option.map_eq_some_iff.1 h
      cases heq
      rw [ih hcut]
      rfl

theorem cutWord?_eq_none {first : α} {word text : List α} (h : ∀ c ∈ text, c ≠ first) :
    cutWord? (first :: word) text = none := by
  induction text with
  | nil => rfl
  | cons c text ih =>
    have hne : first ≠ c := (h c (by simp)).symm
    rw [cutWord?, ih fun d hd => h d (by simp [hd])]
    simp [hne]

theorem split_of_ne {separator : α} {piece : List α} (h : ∀ c ∈ piece, c ≠ separator) :
    split separator piece = [piece] := by
  induction piece with
  | nil => rfl
  | cons c piece ih =>
    have hc : (c == separator) = false := beq_false_of_ne (h c (by simp))
    have hrest := ih fun d hd => h d (by simp [hd])
    rw [split, hrest]
    simp [hc]

theorem split_append {separator : α} {piece : List α} (h : ∀ c ∈ piece, c ≠ separator)
    (rest : List α) :
    split separator (piece ++ separator :: rest) = piece :: split separator rest := by
  induction piece with
  | nil => simp [split]
  | cons c piece ih =>
    have hc : (c == separator) = false := beq_false_of_ne (h c (by simp))
    have hrest := ih fun d hd => h d (by simp [hd])
    rw [List.cons_append, split, hrest]
    simp [hc]

theorem not_mem_of_mem_split {separator : α} {text piece : List α}
    (h : piece ∈ split separator text) : separator ∉ piece := by
  induction text generalizing piece with
  | nil =>
    obtain rfl := List.mem_singleton.1 h
    simp
  | cons c rest ih =>
    simp only [split] at h
    split at h
    · rcases List.mem_cons.1 h with rfl | h
      · simp
      · exact ih h
    · rename_i hc
      have hne : separator ≠ c := by
        rintro rfl
        exact hc (beq_self_eq_true _)
      split at h
      · rename_i first pieces hpieces
        rcases List.mem_cons.1 h with rfl | h
        · have hfirst := ih (hpieces ▸ List.mem_cons_self)
          simp [hne, hfirst]
        · exact ih (hpieces ▸ List.mem_cons_of_mem _ h)
      · obtain rfl := List.mem_singleton.1 h
        simpa using hne

theorem split_intercalate {separator : α} {pieces : List (List α)} (hne : pieces ≠ [])
    (h : ∀ piece ∈ pieces, ∀ c ∈ piece, c ≠ separator) :
    split separator ([separator].intercalate pieces) = pieces := by
  induction pieces with
  | nil => exact absurd rfl hne
  | cons piece pieces ih =>
    have hpiece := h piece (by simp)
    by_cases hlast : pieces = []
    · subst hlast
      rw [List.intercalate_singleton, split_of_ne hpiece]
    · rw [List.intercalate_cons_of_ne_nil hlast, List.append_assoc, List.singleton_append,
        split_append hpiece, ih hlast fun q hq => h q (by simp [hq])]

end Text

/-! ## Lines

A line ends at a newline, which may follow a carriage return; the last line need not end. What
ends a line does not belong to it.
-/

namespace Text

def dropReturn : List Char → List Char
  | '\r' :: line => line
  | line => line

def linesFrom (done : List (List Char)) (line : List Char) : List Char → List (List Char)
  | [] => (if line.isEmpty then done else line.reverse :: done).reverse
  | c :: rest =>
    if c == '\n' then linesFrom ((dropReturn line).reverse :: done) [] rest
    else linesFrom done (c :: line) rest

def lines (text : List Char) : List (List Char) := linesFrom [] [] text

theorem mem_of_mem_dropReturn {c : Char} {line : List Char} (h : c ∈ dropReturn line) :
    c ∈ line := by
  unfold dropReturn at h
  split at h
  · exact List.mem_cons_of_mem _ h
  · exact h

theorem not_mem_of_mem_linesFrom {text line : List Char} {done : List (List Char)}
    (hdone : ∀ l ∈ done, '\n' ∉ l) (hline : '\n' ∉ line) :
    ∀ l ∈ linesFrom done line text, '\n' ∉ l := by
  induction text generalizing done line with
  | nil =>
    intro l hl
    simp only [linesFrom] at hl
    split at hl <;> simp only [List.mem_reverse, List.mem_cons] at hl
    · exact hdone l hl
    · rcases hl with rfl | hl
      · simpa using hline
      · exact hdone l hl
  | cons c rest ih =>
    simp only [linesFrom]
    split
    · refine ih (fun l hl => ?_) (by simp)
      rcases List.mem_cons.1 hl with rfl | hl
      · exact fun h => hline (mem_of_mem_dropReturn (List.mem_reverse.1 h))
      · exact hdone l hl
    · rename_i hc
      refine ih hdone fun h => ?_
      rcases List.mem_cons.1 h with h | h
      · simp [← h] at hc
      · exact hline h

theorem not_mem_of_mem_lines {text : List Char} {l : List Char} (h : l ∈ lines text) :
    '\n' ∉ l :=
  not_mem_of_mem_linesFrom (by simp) (by simp) l h

/-! ## Decimal digits

Whole numbers as runs of decimal digits: reading a run (`natOfDigits`) and reading a word of
bounded size with an optional plus sign (`word?`).
-/

def digitValue (c : Char) : Nat := c.toNat - '0'.toNat

def natOfDigits (digits : List Char) : Nat :=
  digits.foldl (fun n c => 10 * n + digitValue c) 0

def isDigits (text : List Char) : Bool :=
  !text.isEmpty && text.all Char.isDigit

/-- The number below `bound` that the text writes in decimal digits, with or without a leading
plus sign. -/
def word? (bound : Nat) (text : List Char) : Option Nat :=
  let digits := if text.head? = some '+' then text.tail else text
  if isDigits digits && natOfDigits digits < bound then some (natOfDigits digits) else none

end Text

end NonAxiomatic
