import Mathlib.Algebra.GroupWithZero.Nat
import NonAxiomatic.Snapshot

/-!
# Snapshots as bytes

A snapshot is read from the bytes that it is written as, and from nothing that breaks off before
their end. Both follow, part by part, from one relation between a reader, bytes and a value
(`Snapshot.Reader.Reads`): where the bytes stand, the reader gives the value and goes on behind
them, whatever follows; where they break off, it comes to the end. Such readers can be put one after
the other (`Reads.andThen`), so that no written form begins another one.

Lengths are written as whole numbers below `2 ^ 64`. That they are so small follows from the number
of bytes that a snapshot may have, since every item takes one byte at least.

**Theorem (`Snapshot.ofBytes_toBytes`).** A snapshot that takes no more bytes than a snapshot may
have is read as it was written, and what breaks off is refused.
-/

namespace NonAxiomatic

/-! ## Places in bytes -/

namespace Cursor

/-- These bytes are left, behind a place that is in the bytes. -/
structure Leaves (c : Cursor) (bytes : List UInt8) : Prop where
  rest_eq : c.rest = bytes
  place_le : c.place ≤ c.bytes.size

namespace Leaves

variable {c : Cursor} {b : UInt8} {bytes rest : List UInt8}

theorem length_eq (h : c.Leaves rest) : rest.length = c.bytes.size - c.place := by
  rw [← h.rest_eq, Cursor.rest, List.length_drop, Array.length_toList]
  rfl

theorem next? (h : c.Leaves (b :: rest)) : ∃ c', c.next? = some (b, c') ∧ c'.Leaves rest := by
  have hlength := h.length_eq
  rw [List.length_cons] at hlength
  have hlt : c.place < c.bytes.size := by omega
  have hnext : c.next? = some (c.bytes[c.place], { c with place := c.place + 1 }) := dif_pos hlt
  have hrest := (rest_next hnext).symm.trans h.rest_eq
  rw [List.cons.injEq] at hrest
  rw [hrest.1] at hnext
  exact ⟨_, hnext, hrest.2, hlt⟩

theorem next?_nil (h : c.Leaves []) : c.next? = none := by
  have hlength := h.length_eq
  rw [List.length_nil] at hlength
  exact dif_neg (by omega)

theorem take? (h : c.Leaves (bytes ++ rest)) :
    ∃ c', c.take? bytes.length = some (⟨bytes.toArray⟩, c') ∧ c'.Leaves rest := by
  have hlength := h.length_eq
  have hplace := h.place_le
  rw [List.length_append] at hlength
  have hle : c.place + bytes.length ≤ c.bytes.size := by omega
  have hrest : c.bytes.data.toList.drop c.place = bytes ++ rest := h.rest_eq
  refine ⟨{ c with place := c.place + bytes.length }, ?_, ?_, hle⟩
  · rw [Cursor.take?, if_pos hle]
    congr 2
    apply ByteArray.ext
    rw [ByteArray.data_extract]
    apply Array.toList_inj.1
    rw [Array.toList_extract, List.extract_eq_take_drop, hrest, Nat.add_sub_cancel_left,
      List.take_left]
  · rw [Cursor.rest, ← List.drop_drop, hrest, List.drop_left]

theorem take?_eq_none {n : Nat} (h : c.Leaves rest) (hn : rest.length < n) : c.take? n = none := by
  have hlength := h.length_eq
  have hplace := h.place_le
  exact if_neg (by omega)

end Leaves

end Cursor

namespace Snapshot

namespace Reader

/-! ## Reading what was written -/

/-- Bytes are read as a value: where they stand, it is read and what follows is left; where they
break off, there are not enough of them. -/
structure Reads {α : Type} (read : Cursor → Except PayloadError (α × Cursor)) (bytes : List UInt8)
    (a : α) : Prop where
  whole : ∀ c rest, c.Leaves (bytes ++ rest) → ∃ c', read c = .ok (a, c') ∧ c'.Leaves rest
  cut : ∀ c start missing, bytes = start ++ missing → missing ≠ [] → c.Leaves start →
    read c = .error .endOfBytes

section Combining

variable {α β : Type} {read : Cursor → Except PayloadError (α × Cursor)} {bytes bytes' : List UInt8}
  {a : α} {b : β}

theorem Reads.nothing (a : α) : Reads (fun c => .ok (a, c)) [] a where
  whole c _ h := ⟨c, rfl, h⟩
  cut _ _ _ h hmissing _ := absurd (List.append_eq_nil_iff.1 h.symm).2 hmissing

/-- One reader after the other: what breaks off does so for the first or for the second. -/
theorem Reads.andThen (h : Reads read bytes a)
    {next : α × Cursor → Except PayloadError (β × Cursor)}
    (h' : Reads (fun c => next (a, c)) bytes' b) :
    Reads (fun c => read c >>= next) (bytes ++ bytes') b where
  whole c rest hc := by
    -- The whole: the second reader begins where the first one stops.
    rw [List.append_assoc] at hc
    obtain ⟨c₁, hread, hc₁⟩ := h.whole c _ hc
    obtain ⟨c₂, hnext, hc₂⟩ := h'.whole c₁ rest hc₁
    refine ⟨c₂, ?_, hc₂⟩
    rw [hread]
    exact hnext
  cut c start missing hbytes hmissing hc := by
    -- The cut: it falls into the bytes of the first reader, or behind them, or just between.
    rcases List.append_eq_append_iff.1 hbytes with ⟨start', rfl, hstart'⟩ | ⟨behind, hbehind, rfl⟩
    · obtain ⟨c₁, hread, hc₁⟩ := h.whole c start' hc
      rw [hread]
      exact h'.cut c₁ start' missing hstart' hmissing hc₁
    · by_cases hnone : behind = []
      · subst hnone
        rw [List.append_nil] at hbehind
        subst hbehind
        obtain ⟨c₁, hread, hc₁⟩ := h.whole c [] (by rwa [List.append_nil])
        rw [hread]
        exact h'.cut c₁ [] bytes' rfl hmissing hc₁
      · rw [h.cut c start behind hbehind hnone hc]
        rfl

/-- A reader after which nothing more is read. -/
theorem Reads.give (h : Reads read bytes a)
    {next : α × Cursor → Except PayloadError (β × Cursor)} (hnext : ∀ c, next (a, c) = .ok (b, c)) :
    Reads (fun c => read c >>= next) bytes b := by
  have hnothing : Reads (fun c => next (a, c)) [] b := by
    simp only [hnext]
    exact .nothing b
  have hthen := h.andThen hnothing
  rwa [List.append_nil] at hthen

end Combining

/-! ## Numbers -/

theorem reads_byte (b : UInt8) : Reads byte [b] b where
  whole c rest h := by
    obtain ⟨c', hnext, hc'⟩ := h.next?
    exact ⟨c', by rw [byte, hnext], hc'⟩
  cut c start missing hbytes hmissing h := by
    cases start with
    | nil => rw [byte, h.next?_nil]
    | cons x start =>
      rw [List.cons_append, List.cons.injEq] at hbytes
      exact absurd (List.append_eq_nil_iff.1 hbytes.2.symm).2 hmissing

theorem toNat_toUInt8 {n : Nat} (h : n < 0x100) : n.toUInt8.toNat = n :=
  Nat.mod_eq_of_lt h

/-- A number of one byte, with room for more or without. -/
theorem reads_natIn_small {last bytes n : Nat} (hn : n < 0x80) (hlast : bytes = 0 → n ≤ last)
    (unit low : Nat) :
    Reads (natIn last (bytes + 1) unit low) [n.toUInt8] (low + unit * n) := by
  have hbyte : n.toUInt8.toNat = n := toNat_toUInt8 (by omega)
  refine (reads_byte n.toUInt8).give fun c => ?_
  dsimp only
  rw [hbyte, if_neg (by omega), if_neg (by omega), Nat.mod_eq_of_lt hn]

/-- A number that fits is read, whatever has been read of it before. Where it is written, there may
be room for more bytes than it needs. -/
theorem reads_natIn {last bytes width n : Nat} (hlast : last < 0x80) (hwidth : bytes < width)
    (unit low : Nat) (hn : n < 0x80 ^ bytes * (last + 1)) :
    Reads (natIn last (bytes + 1) unit low) (Writer.natIn width n) (low + unit * n) := by
  -- What has been read is kept in `low`, and `unit` is what the next digit counts.
  induction bytes generalizing unit low n width with
  | zero =>
    obtain ⟨width, rfl⟩ := Nat.exists_eq_add_of_lt hwidth
    rw [Writer.natIn, if_pos (by omega)]
    exact reads_natIn_small (by omega) (fun _ => by omega) unit low
  | succ bytes ih =>
    obtain ⟨width, rfl⟩ := Nat.exists_eq_add_of_lt hwidth
    rw [Writer.natIn]
    by_cases hsmall : n < 0x80
    · rw [if_pos hsmall]
      exact reads_natIn_small hsmall (fun h => by omega) unit low
    · have hbyte : (n % 0x80 + 0x80).toUInt8.toNat = n % 0x80 + 0x80 := toNat_toUInt8 (by omega)
      have hmore : 0x80 ≤ n % 0x80 + 0x80 := Nat.le_add_left _ _
      have hrest : n / 0x80 < 0x80 ^ bytes * (last + 1) := by
        rw [Nat.div_lt_iff_lt_mul (by omega), Nat.mul_right_comm, ← Nat.pow_succ]
        exact hn
      have hsum : low + unit * (n % 0x80) + unit * 0x80 * (n / 0x80) = low + unit * n := by
        rw [Nat.mul_assoc, Nat.add_assoc, ← Nat.mul_add, Nat.mod_add_div]
      rw [if_neg hsmall, ← hsum]
      refine (reads_byte (n % 0x80 + 0x80).toUInt8).andThen ?_
      simp only [hbyte, if_pos hmore, Nat.add_mod_right, Nat.mod_mod]
      exact ih (by omega) (unit * 0x80) _ hrest

theorem reads_nat64 {n : Nat} (h : n < 2 ^ 64) : Reads nat64 (Writer.nat n) n := by
  have hfits : n < 0x80 ^ 9 * (1 + 1) := h
  have hread := reads_natIn (by decide) (show 9 < 10 by decide) 1 0 hfits
  rwa [Nat.zero_add, Nat.one_mul] at hread

theorem reads_nat32 {n : Nat} (h : n < 2 ^ 32) : Reads nat32 (Writer.nat n) n := by
  have hfits : n < 0x80 ^ 4 * (15 + 1) := h
  have hread := reads_natIn (by decide) (show 4 < 10 by decide) 1 0 hfits
  rwa [Nat.zero_add, Nat.one_mul] at hread

/-! ## Doubles and texts -/

theorem reads_bytes (bs : List UInt8) : Reads (bytes bs.length) bs ⟨bs.toArray⟩ where
  whole c rest h := by
    obtain ⟨c', htake, hc'⟩ := h.take?
    exact ⟨c', by rw [bytes, htake], hc'⟩
  cut c start missing hbytes hmissing h := by
    have hlength := List.length_pos_iff.2 hmissing
    rw [bytes, h.take?_eq_none (by rw [hbytes, List.length_append]; omega)]

theorem length_wordBytes (count n : Nat) : (Writer.wordBytes count n).length = count := by
  induction count generalizing n with
  | zero => rfl
  | succ count ih => rw [Writer.wordBytes, List.length_cons, ih]

/-- The bytes of a word make up the word. -/
theorem foldr_wordBytes {count n : Nat} (h : n < 0x100 ^ count) :
    (Writer.wordBytes count n).foldr (fun (b : UInt8) n => b.toNat + 0x100 * n) 0 = n := by
  induction count generalizing n with
  | zero =>
    rw [Nat.pow_zero] at h
    rw [Writer.wordBytes, List.foldr_nil]
    omega
  | succ count ih =>
    have hrest : n / 0x100 < 0x100 ^ count := by
      rw [Nat.div_lt_iff_lt_mul (by omega), ← Nat.pow_succ]
      exact h
    rw [Writer.wordBytes, List.foldr_cons, ih hrest]
    exact Nat.mod_add_div n 0x100

theorem reads_double (x : Double) : Reads double (Writer.double x) x := by
  have hlength := length_wordBytes 8 x.bits.toNat
  have hword : x.bits.toNat < 0x100 ^ 8 := x.bits.toNat_lt
  have hbits : x.bits.toNat.toUInt64 = x.bits := UInt64.ofNat_toNat
  have hread := reads_bytes (Writer.wordBytes 8 x.bits.toNat)
  rw [hlength] at hread
  refine hread.give fun c => ?_
  dsimp only
  rw [foldr_wordBytes hword, hbits]
  rfl

theorem fromUTF8?_toUTF8 (s : String) : String.fromUTF8? s.toUTF8 = some s := by
  rw [String.fromUTF8?, String.toUTF8_eq_toByteArray, dif_pos s.isValidUTF8]
  rfl

theorem reads_text {s : String} (h : s.utf8ByteSize < 2 ^ 64) : Reads text (Writer.text s) s := by
  have hlength : s.toUTF8.data.toList.length = s.utf8ByteSize := by
    rw [Array.length_toList]
    exact String.size_toByteArray
  have hread := reads_bytes s.toUTF8.data.toList
  rw [hlength] at hread
  refine (reads_nat64 h).andThen (hread.give fun c => ?_)
  dsimp only
  rw [fromUTF8?_toUTF8]
  rfl

/-! ## Lists and what may be absent -/

section Composite

variable {α : Type} {read : Cursor → Except PayloadError (α × Cursor)} {write : α → List UInt8}

theorem items_succ (count : Nat) (done : List α) :
    items read (count + 1) done = (fun c => do
      let (a, c) ← read c
      items read count (a :: done) c) := by
  funext c
  rw [items]
  cases read c <;> rfl

theorem reads_items {xs : List α} (h : ∀ x ∈ xs, Reads read (write x) x) (done : List α) :
    Reads (items read xs.length done) (xs.flatMap write) (done.reverse ++ xs) := by
  induction xs generalizing done with
  | nil =>
    rw [List.append_nil]
    exact .nothing done.reverse
  | cons x xs ih =>
    rw [List.forall_mem_cons] at h
    have hrest := ih h.2 (x :: done)
    rw [List.reverse_cons, List.append_assoc, List.singleton_append] at hrest
    rw [List.length_cons, items_succ, List.flatMap_cons]
    exact h.1.andThen hrest

theorem reads_list {xs : List α} (h : ∀ x ∈ xs, Reads read (write x) x)
    (hlength : xs.length < 2 ^ 64) : Reads (list read) (Writer.list write xs) xs :=
  (reads_nat64 hlength).andThen (reads_items h [])

theorem reads_option {x : Option α} (h : ∀ a ∈ x, Reads read (write a) a) :
    Reads (option read) (Writer.option write x) x := by
  cases x with
  | none => exact (reads_byte 0).andThen (.nothing none)
  | some a => exact (reads_byte 1).andThen ((h a rfl).give fun _ => rfl)

end Composite

/-! ## Snapshots -/

theorem reads_value (v : TruthValue Double) : Reads value (Writer.value v) v :=
  (reads_double v.frequency).andThen ((reads_double v.confidence).give fun _ => rfl)

theorem reads_kind (kind : SentenceKind) : Reads Reader.kind (Writer.kind kind) kind := by
  cases kind with
  | judgment v => exact (reads_nat32 (by decide)).andThen ((reads_value v).give fun _ => rfl)
  | question => exact (reads_nat32 (by decide)).give fun _ => rfl
  | goal v => exact (reads_nat32 (by decide)).andThen ((reads_value v).give fun _ => rfl)

end Reader

/-! ## The lengths of what is written -/

namespace Writer

theorem nat_ne_nil (n : Nat) : nat n ≠ [] := by
  rw [nat, natIn]
  split <;> exact List.cons_ne_nil _ _

theorem length_text (s : String) : s.utf8ByteSize ≤ (text s).length := by
  have hlength : s.toUTF8.data.toList.length = s.utf8ByteSize := String.size_toByteArray
  rw [text, List.length_append, hlength]
  exact Nat.le_add_left _ _

section Composite

variable {α β : Type} (write : α → List UInt8) {xs : List α}

/-- Every item takes one byte at least. -/
theorem length_list (h : ∀ x, write x ≠ []) : xs.length ≤ (list write xs).length := by
  have hitems : xs.length ≤ (xs.flatMap write).length := by
    induction xs with
    | nil => exact Nat.le_refl 0
    | cons x xs ih =>
      have hpos := List.length_pos_iff.2 (h x)
      rw [List.length_cons, List.flatMap_cons, List.length_append]
      omega
  rw [list, List.length_append]
  omega

theorem length_le_list {x : α} (h : x ∈ xs) : (write x).length ≤ (list write xs).length := by
  have hitem : (write x).Sublist (xs.map write).flatten :=
    List.sublist_flatten_of_mem (List.mem_map_of_mem h)
  rw [list, List.length_append, List.flatMap_def]
  exact Nat.le_trans hitem.length_le (Nat.le_add_left _ _)

theorem option_map (f : β → α) (x : Option β) :
    option (fun b => write (f b)) x = option write (x.map f) := by
  cases x <;> rfl

theorem list_map (f : β → α) (xs : List β) :
    list (fun b => write (f b)) xs = list write (xs.map f) := by
  rw [list, list, List.length_map, List.flatMap_map]

end Composite

theorem entry_ne_nil (e : SnapshotEntry) : entry e ≠ [] := by
  simp [entry, text, nat_ne_nil]

end Writer

namespace Reader

theorem reads_entry {e : SnapshotEntry} (h : (Writer.entry e).length < 2 ^ 64) :
    Reads entry (Writer.entry e) e := by
  have htext := Writer.length_text e.statement
  have hintervals : e.intervals.length ≤
      (Writer.list (fun i : UInt32 => Writer.nat i.toNat) e.intervals).length :=
    Writer.length_list _ fun i => Writer.nat_ne_nil i.toNat
  rw [Writer.entry] at h ⊢
  simp only [List.length_append] at h
  have hoccurrence : Reads (option nat64) (Writer.option (fun t => Writer.nat t.toNat) e.occurrence)
      (e.occurrence.map UInt64.toNat) := by
    rw [Writer.option_map]
    refine reads_option fun n hn => ?_
    obtain ⟨t, _, rfl⟩ := Option.map_eq_some_iff.1 hn
    exact reads_nat64 t.toNat_lt
  have hlist : Reads (list nat32) (Writer.list (fun i => Writer.nat i.toNat) e.intervals)
      (e.intervals.map UInt32.toNat) := by
    rw [Writer.list_map]
    refine reads_list (fun n hn => ?_) (by rw [List.length_map]; omega)
    obtain ⟨i, _, rfl⟩ := List.mem_map.1 hn
    exact reads_nat32 i.toNat_lt
  rw [List.append_assoc, List.append_assoc]
  refine (reads_text (by omega)).andThen ((reads_kind e.kind).andThen (hoccurrence.andThen
    (hlist.give fun c => ?_)))
  have hcycle : Nat.toUInt64 ∘ UInt64.toNat = id := funext fun _ => UInt64.ofNat_toNat
  have hinterval : Nat.toUInt32 ∘ UInt32.toNat = id := funext fun _ => UInt32.ofNat_toNat
  dsimp only
  rw [Option.map_map, hcycle, Option.map_id, List.map_map, hinterval, List.map_id]
  rfl

theorem reads_payload {s : Snapshot} (h : (Writer.payload s).length < 2 ^ 64) :
    Reads payload (Writer.payload s) s := by
  rw [Writer.payload] at h ⊢
  simp only [List.length_append] at h
  have hlist : ∀ entries : List SnapshotEntry, (Writer.list Writer.entry entries).length < 2 ^ 64 →
      Reads (list entry) (Writer.list Writer.entry entries) entries := by
    intro entries hentries
    have hcount : entries.length ≤ (Writer.list Writer.entry entries).length :=
      Writer.length_list _ Writer.entry_ne_nil
    refine reads_list (fun e he => reads_entry ?_) (by omega)
    exact Nat.lt_of_le_of_lt (Writer.length_le_list Writer.entry he) hentries
  have hcycle : s.cycle.toNat.toUInt64 = s.cycle := UInt64.ofNat_toNat
  rw [List.append_assoc]
  refine (reads_nat64 s.cycle.toNat_lt).andThen ((hlist s.beliefs (by omega)).andThen
    ((hlist s.desires (by omega)).give fun c => ?_))
  dsimp only
  rw [hcycle]
  rfl

end Reader

/-! ## Whole snapshots -/

/-- Behind a header, only the contents have to be looked at. -/
theorem ofBytes_eq {contents : List UInt8} {bytes : ByteArray}
    (hbytes : bytes.data.toList = Header.current.toBytes ++ contents)
    (hsize : bytes.size ≤ maxBytes) : ∃ c : Cursor, c.Leaves contents ∧
      ofBytes bytes = match Reader.payload c with
        | .ok (s, _) => .ok s
        | .error cause => .error (.badPayload cause) := by
  have hlength : bytes.size = Header.size + contents.length := by
    have hlengths := congrArg List.length hbytes
    rw [List.length_append] at hlengths
    exact hlengths
  have hheader : (bytes.extract 0 Header.size).data.toList = Header.current.toBytes := by
    rw [ByteArray.data_extract, Array.toList_extract, hbytes, List.extract_eq_take_drop,
      List.drop_zero, Nat.sub_zero]
    exact List.take_left' rfl
  refine ⟨⟨bytes, Header.size⟩, ⟨?_, ?_⟩, ?_⟩
  · rw [Cursor.rest, hbytes]
    exact List.drop_left' rfl
  · exact hlength ▸ Nat.le_add_right _ _
  · unfold ofBytes
    rw [if_neg (by omega), if_neg (by omega), hheader]
    rfl

/-- **Main theorem.** A snapshot that takes no more bytes than a snapshot may have is read as it was
written. What breaks off is refused: within the header for being too short, and behind it for having
come to its end. -/
theorem ofBytes_toBytes (s : Snapshot) (hsize : s.toBytes.size ≤ maxBytes) :
    ofBytes s.toBytes = .ok s ∧
      ∀ bytes : ByteArray, bytes.data.toList <+: s.toBytes.data.toList → bytes ≠ s.toBytes →
        ofBytes bytes = .error
          (if bytes.size < Header.size then .tooShort else .badPayload .endOfBytes) := by
  have hbytes : s.toBytes.data.toList = Header.current.toBytes ++ Writer.payload s := rfl
  have hlength : s.toBytes.size = Header.size + (Writer.payload s).length := by
    have hlengths := congrArg List.length hbytes
    rw [List.length_append] at hlengths
    exact hlengths
  have hmax : maxBytes < 2 ^ 64 := by decide
  have hreads := Reader.reads_payload (s := s) (by omega)
  refine ⟨?_, fun bytes hbegins hne => ?_⟩
  · obtain ⟨c, hc, heq⟩ := ofBytes_eq hbytes hsize
    obtain ⟨c', hread, _⟩ := hreads.whole c [] (by rwa [List.append_nil])
    rw [heq, hread]
  · have hle : bytes.size ≤ s.toBytes.size := hbegins.length_le
    by_cases hshort : bytes.size < Header.size
    · rw [if_pos hshort, ofBytes, if_pos hshort]
      rfl
    · -- The header is there, and the contents break off.
      have hheader : Header.current.toBytes <+: bytes.data.toList :=
        List.prefix_of_prefix_length_le ⟨_, hbytes.symm⟩ hbegins (Nat.not_lt.1 hshort)
      obtain ⟨start, hstart⟩ := hheader
      rw [← hstart, hbytes, List.prefix_append_right_inj] at hbegins
      obtain ⟨missing, hmissing⟩ := hbegins
      have hcut : missing ≠ [] := by
        rintro rfl
        rw [List.append_nil] at hmissing
        refine hne (ByteArray.ext (Array.toList_inj.1 ?_))
        rw [hbytes, ← hstart, hmissing]
      obtain ⟨c, hc, heq⟩ := ofBytes_eq hstart.symm (Nat.le_trans hle hsize)
      rw [if_neg hshort, heq, hreads.cut c start missing hmissing.symm hcut hc]

/-- A snapshot with greatest numbers, a value that is no number, and a text that is not ASCII. -/
def extremes : Snapshot where
  cycle := 0xFFFFFFFFFFFFFFFF
  beliefs :=
    [⟨"(a --> b)", .judgment ⟨⟨0xFFF8000000000001⟩, ⟨0x8000000000000000⟩⟩, none, [0xFFFFFFFF]⟩]
  desires := [⟨"é", .question, some 0xFFFFFFFFFFFFFFFF, []⟩]

/-- The bytes of such a snapshot, and the first twenty of them. -/
theorem ofBytes_toBytes_extremes :
    extremes.toBytes.size ≤ maxBytes ∧ ofBytes extremes.toBytes = .ok extremes ∧
      (extremes.toBytes.extract 0 20).data.toList <+: extremes.toBytes.data.toList ∧
      extremes.toBytes.extract 0 20 ≠ extremes.toBytes ∧
      ofBytes (extremes.toBytes.extract 0 20) = .error (.badPayload .endOfBytes) := by
  have hsize : extremes.toBytes.size ≤ maxBytes := by decide +kernel
  have hbegins : (extremes.toBytes.extract 0 20).data.toList <+: extremes.toBytes.data.toList := by
    decide +kernel
  have hne : extremes.toBytes.extract 0 20 ≠ extremes.toBytes := by decide +kernel
  have hshort : ¬ (extremes.toBytes.extract 0 20).size < Header.size := by decide +kernel
  obtain ⟨hwhole, hcut⟩ := ofBytes_toBytes extremes hsize
  have herror := hcut _ hbegins hne
  rw [if_neg hshort] at herror
  exact ⟨hsize, hwhole, hbegins, hne, herror⟩

end Snapshot

end NonAxiomatic
