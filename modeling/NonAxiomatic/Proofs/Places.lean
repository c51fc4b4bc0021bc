import NonAxiomatic.Proofs.Nesting

/-!
# Which places can be sliced

A slice begins and ends between characters. Where each character is one byte, every place in range
is one of these, and places are indices (`Text.IsAscii.slice_eq`). Elsewhere it is what was found
there that makes a place good: a place one byte behind a character of one byte is between characters
again, however long those around it are.

* `Text.lastPlaceOf?_behind`: to find the last place of a character behind another one is to cut the
  text behind that one at its last such character.
* `Text.slice_behind`: what begins one place behind a character of one byte.
-/

namespace NonAxiomatic

namespace Text

variable {text part : List Char} {start stop place : Nat}

theorem utf8ByteSize_ofList (text : List Char) :
    (String.ofList text).utf8ByteSize = byteCount text := by
  induction text with
  | nil => rfl
  | cons c text ih =>
    rw [String.ofList_cons, String.utf8ByteSize_append, String.utf8ByteSize_singleton, ih,
      byteCount_cons]

/-! ## Text of one byte for each character -/

/-- Each character is written by one byte. -/
def IsAscii (text : List Char) : Prop := ∀ c ∈ text, c.toNat < 0x80

theorem utf8Size_of_lt {c : Char} (h : c.toNat < 0x80) : c.utf8Size = 1 := by
  rw [Char.utf8Size_eq_one_iff, UInt32.le_iff_toNat_le]
  exact Nat.le_of_lt_succ h

theorem ofNat_byte {c : Char} (h : c.toNat < 0x80) : Char.ofNat c.val.toUInt8.toNat = c := by
  rw [UInt32.toNat_toUInt8, Nat.mod_eq_of_lt (by have : c.val.toNat < 0x80 := h; omega)]
  exact Char.ofNat_toNat c

namespace IsAscii

theorem subset (h : IsAscii text) (hsub : part ⊆ text) : IsAscii part := fun c hc => h c (hsub hc)

theorem byteCount_eq (h : IsAscii text) : byteCount text = text.length := by
  induction text with
  | nil => rfl
  | cons c rest ih =>
    rw [byteCount_cons, utf8Size_of_lt (h c List.mem_cons_self),
      ih (h.subset (List.subset_cons_self c rest)), List.length_cons, Nat.add_comm]

theorem bytes_eq (h : IsAscii text) : bytes text = text.map fun c => c.val.toUInt8 := by
  induction text with
  | nil => rfl
  | cons c rest ih =>
    have hsize := utf8Size_of_lt (h c List.mem_cons_self)
    have hrest := ih (h.subset (List.subset_cons_self c rest))
    rw [bytes, List.flatMap_cons, String.utf8EncodeChar_eq_singleton hsize, ← bytes, hrest]
    rfl

theorem byteAt?_eq (h : IsAscii text) (place : Nat) : byteAt? text place = text[place]? := by
  rw [byteAt?, h.bytes_eq, List.getElem?_map, Option.map_map]
  cases hc : text[place]? with
  | none => rfl
  | some c => exact congrArg some (ofNat_byte (h c (List.mem_of_getElem? hc)))

/-- Where each character is one byte, places count characters. -/
theorem cutAt_eq (h : IsAscii text) (hplace : place ≤ text.length) :
    cutAt text place = .ok (text.take place, text.drop place) := by
  refine cutAt_eq_ok_iff.2 ⟨(List.take_append_drop place text).symm, ?_⟩
  rw [(h.subset (List.take_subset place text)).byteCount_eq, List.length_take_of_le hplace]

theorem slice_eq (h : IsAscii text) (horder : start ≤ stop) (hstop : stop ≤ text.length) :
    slice text start stop = .ok ((text.take stop).drop start) := by
  have hplace : start ≤ (text.take stop).length := by rwa [List.length_take_of_le hstop]
  have hstart := (h.subset (List.take_subset stop text)).cutAt_eq hplace
  rw [slice, if_neg (Nat.not_lt.2 horder), h.cutAt_eq hstop]
  show (cutAt (text.take stop) start >>= _) = _
  rw [hstart]
  rfl

theorem sliceTo_eq (h : IsAscii text) (hplace : place ≤ text.length) :
    sliceTo text place = .ok (text.take place) := by
  rw [sliceTo, h.cutAt_eq hplace]
  rfl

theorem sliceFrom_eq (h : IsAscii text) (hplace : place ≤ text.length) :
    sliceFrom text place = .ok (text.drop place) := by
  rw [sliceFrom, h.cutAt_eq hplace]
  rfl

end IsAscii

/-! ## Places behind one another -/

theorem byteCount_concat {x : Char} (hx : x.utf8Size = 1) (before : List Char) :
    byteCount (before ++ [x]) = byteCount before + 1 := by
  rw [byteCount_append, byteCount_cons, hx, byteCount_nil]

/-- Where a character stands last behind another one, if it does. -/
theorem lastPlaceOf?_behind {x : Char} (hx : x.utf8Size = 1) (c : Char) (before after : List Char) :
    (lastPlaceOf? c (before ++ x :: after)).filter (byteCount before < ·) =
      (cutLast? c after).map fun parts => byteCount before + 1 + byteCount parts.1 := by
  rw [lastPlaceOf?_eq]
  cases hcut : cutLast? c after with
  -- A place behind the other character is searched for and found there, or nothing is found behind
  -- it.
  | some parts =>
    obtain ⟨inner, behind⟩ := parts
    have hlast : cutLast? c (before ++ x :: after) = some (before ++ x :: inner, behind) := by
      rw [eq_of_cutLast? hcut, ← List.cons_append, ← List.append_assoc]
      exact cutLast?_append (fun d hd => ne_of_mem_of_not_mem hd (Term.not_mem_of_cutLast? hcut)) _
    have hcount : byteCount (before ++ x :: inner) = byteCount before + 1 + byteCount inner := by
      rw [byteCount_append, byteCount_cons, hx, Nat.add_assoc]
    rw [hlast, Option.map_some, Option.map_some, hcount]
    exact if_pos (by simp; omega)
  | none =>
    have hnot := Term.not_mem_of_cutLast?_eq_none hcut
    rw [Option.map_none, Option.filter_eq_none_iff]
    intro place hplace
    obtain ⟨⟨front, behind⟩, hfound, rfl⟩ := Option.map_eq_some_iff.1 hplace
    obtain ⟨inner, rfl, -⟩ | ⟨inner, rfl, hinner⟩ :=
      List.append_eq_append_iff.1 (eq_of_cutLast? hfound).symm
    · simp
    · -- All that is found behind the other character is in `after`.
      cases inner with
      | nil => simp
      | cons d inner =>
        rw [List.cons_append, List.cons.injEq] at hinner
        exact absurd (hinner.2 ▸ by simp) hnot

/-- What stands behind a character begins one place further. -/
theorem slice_behind {x : Char} (hx : x.utf8Size = 1) (before part after : List Char) :
    slice (before ++ x :: (part ++ after)) (byteCount before + 1)
      (byteCount before + 1 + byteCount part) = .ok part := by
  have hslice := slice_append (before ++ [x]) part after
  rwa [byteCount_concat hx, List.append_assoc, List.append_assoc, List.singleton_append] at hslice

end Text

end NonAxiomatic
