import NonAxiomatic.Proofs.Access
import NonAxiomatic.Proofs.Utterances

/-!
# Sentences in requests

A sentence can be put into the engine at once, or with a request that holds its text. A request is
checked for the length of the text as it is given. The engine leaves blanks out first and looks at
the length of the statement only, so it takes in what a request cannot put in.

* `Body.read_carrying`: every text can be put into a body and is read from it as it is.
* `Utterance.parse_eq_ok_of_compact`: blanks have no part in what a text says.
* `Handler.input_singleton`: what comes of a batch of one sentence.

**Theorem (`Service.respond_input_iff`).** A request with one sentence is answered as the engine
takes the sentence in, if its text has no more bytes than a sentence may have. Otherwise it is
refused, whatever the engine does with the text.
-/

namespace NonAxiomatic

/-! ## Strings in bodies -/

namespace Json

variable {strict : Bool} {read rest : List Char}

/-- A character is written with a letter that stands for it, by its number, or as it is. -/
theorem escape_cases (c : Char) :
    (∃ d, escape c = ['\\', d] ∧ d ≠ 'u' ∧ escaped? d = some c) ∨
    (escape c = ['\\', 'u', '0', '0', hexDigit (c.toNat / 16), hexDigit (c.toNat % 16)] ∧
      c.toNat < 0x20) ∨
    (escape c = [c] ∧ c ≠ '"' ∧ c ≠ '\\' ∧ ¬ c.toNat < 0x20) := by
  unfold escape
  split_ifs with hquote hslash hline hreturn htab hback hfeed hcontrol
  · exact .inl ⟨'"', rfl, by decide, by rw [eq_of_beq hquote]; rfl⟩
  · exact .inl ⟨'\\', rfl, by decide, by rw [eq_of_beq hslash]; rfl⟩
  · exact .inl ⟨'n', rfl, by decide, by rw [eq_of_beq hline]; rfl⟩
  · exact .inl ⟨'r', rfl, by decide, by rw [eq_of_beq hreturn]; rfl⟩
  · exact .inl ⟨'t', rfl, by decide, by rw [eq_of_beq htab]; rfl⟩
  · exact .inl ⟨'b', rfl, by decide, by rw [← Char.ofNat_toNat c, eq_of_beq hback]; rfl⟩
  · exact .inl ⟨'f', rfl, by decide, by rw [← Char.ofNat_toNat c, eq_of_beq hfeed]; rfl⟩
  · exact .inr (.inl ⟨rfl, hcontrol⟩)
  · exact .inr (.inr ⟨rfl, by simpa using hquote, by simpa using hslash, hcontrol⟩)

theorem unit?_hexDigit : ∀ n < 0x20,
    unit? '0' '0' (hexDigit (n / 16)) (hexDigit (n % 16)) = some n := by
  decide +kernel

/-- A character is read from the way in which it is written. -/
theorem stringFrom_escape (c : Char) :
    stringFrom strict none read (escape c ++ rest) = stringFrom strict none (c :: read) rest := by
  obtain ⟨d, hc, hd, hletter⟩ | ⟨hc, hcontrol⟩ | ⟨hc, hquote, hslash, hcontrol⟩ := escape_cases c
  · rw [hc, List.cons_append, List.cons_append, List.nil_append, stringFrom, hletter]
    · rfl
    · exact fun _ _ _ _ _ h _ => hd h
  · have hadd : addUnit? strict none read c.toNat = some (none, c :: read) := by
      simp [addUnit?, isLeading, isTrailing, Char.ofNat_toNat, show ¬ 0xD800 ≤ c.toNat by omega,
        show ¬ 0xDC00 ≤ c.toNat by omega]
    rw [hc]
    simp only [List.cons_append, List.nil_append]
    rw [stringFrom, unit?_hexDigit _ hcontrol, Option.bind_some, hadd]
  · rw [hc, List.cons_append, List.nil_append, stringFrom]
    · simp [settle?, hquote, hcontrol]
    · exact fun _ _ _ _ _ h _ => hslash h
    · exact fun _ _ h _ => hslash h

theorem stringFrom_flatMap_escape (cs : List Char) :
    stringFrom strict none read (cs.flatMap escape ++ '"' :: rest) =
      some (String.ofList (read.reverse ++ cs), rest) := by
  induction cs generalizing read with
  | nil => simp [stringFrom, settle?]
  | cons c cs ih =>
    rw [List.flatMap_cons, List.append_assoc, stringFrom_escape, ih, List.reverse_cons,
      List.append_assoc, List.singleton_append]

theorem toList_quote (s : String) :
    (quote s).toList = '"' :: (s.toList.flatMap escape ++ ['"']) := by
  rw [quote, String.toList_ofList, List.cons_append]

/-- A string is read from its text. -/
theorem string?_quote (strict : Bool) (s : String) (rest : List Char) :
    string? strict (s.toList.flatMap escape ++ '"' :: rest) = some (s, rest) := by
  rw [string?, stringFrom_flatMap_escape, List.reverse_nil, List.nil_append, String.ofList_toList]

theorem utf8ByteSize_ofList_cons (c : Char) (cs : List Char) :
    (String.ofList (c :: cs)).utf8ByteSize = c.utf8Size + (String.ofList cs).utf8ByteSize := by
  rw [String.ofList_cons, String.utf8ByteSize_append, String.utf8ByteSize_singleton]

/-- A character takes six times as many bytes at most. -/
theorem utf8ByteSize_escape_le (c : Char) :
    (String.ofList (escape c)).utf8ByteSize ≤ 6 * c.utf8Size := by
  have hpos : 0 < c.utf8Size := c.utf8Size_pos
  have hnil : (String.ofList []).utf8ByteSize = 0 := rfl
  obtain ⟨d, hc, -⟩ | ⟨hc, hcontrol⟩ | ⟨hc, -⟩ := escape_cases c
  · have hd : d.utf8Size ≤ 4 := d.utf8Size_le_four
    have hslash : '\\'.utf8Size = 1 := rfl
    rw [hc, utf8ByteSize_ofList_cons, utf8ByteSize_ofList_cons]
    omega
  · have hdigits : ∀ n < 0x20, (String.ofList ['\\', 'u', '0', '0', hexDigit (n / 16),
        hexDigit (n % 16)]).utf8ByteSize = 6 := by
      decide +kernel
    rw [hc, hdigits _ hcontrol]
    omega
  · rw [hc, utf8ByteSize_ofList_cons]
    omega

theorem utf8ByteSize_flatMap_escape_le (cs : List Char) :
    (String.ofList (cs.flatMap escape)).utf8ByteSize ≤ 6 * (String.ofList cs).utf8ByteSize := by
  induction cs with
  | nil => decide
  | cons c cs ih =>
    have hc := utf8ByteSize_escape_le c
    rw [List.flatMap_cons, String.ofList_append, String.utf8ByteSize_append,
      utf8ByteSize_ofList_cons]
    omega

end Json

namespace Body

open Json

theorem string_quote (s : String) (rest : List Char) :
    string ((quote s).toList ++ rest) = .ok (s, rest) := by
  have hread := string?_quote true s rest
  have hquote (text : List Char) : skipBlank ('"' :: text) = '"' :: text := rfl
  rw [toList_quote, List.cons_append, List.append_assoc, List.singleton_append]
  simp only [string, hquote, hread]

theorem stringsFrom_last (rounds : Nat) (s : String) (rest : List Char) :
    stringsFrom (rounds + 1) [] ((quote s).toList ++ ']' :: rest) = .ok ([s], rest) := by
  rw [stringsFrom, string_quote]
  rfl

/-- An array of one string is read from its text. -/
theorem strings_singleton (s : String) (rest : List Char) :
    strings ('[' :: ((quote s).toList ++ ']' :: rest)) = .ok ([s], rest) := by
  have hlast := stringsFrom_last ((quote s).toList ++ ']' :: rest).length s rest
  rw [toList_quote] at hlast ⊢
  exact hlast

theorem memberValue_sentences (rounds : Nat) (s : String) (rest : List Char) :
    memberValue sentences rounds none "sentences"
      (':' :: '[' :: ((quote s).toList ++ ']' :: rest)) = .ok (some [s], rest) := by
  have hname : sentences.name = "sentences" := rfl
  have hcolon (text : List Char) : afterColon (':' :: text) = .ok text := rfl
  have hread : sentences.read = strings := rfl
  simp [memberValue, hname, hcolon, hread, strings_singleton, bind, Except.bind, pure, Except.pure]

/-- The text of a body that holds one sentence. -/
def carrying (sentence : String) : String :=
  (Json.object [("sentences", .array [.string sentence])]).compact

theorem toList_carrying (sentence : String) : (carrying sentence).toList =
    '{' :: '"' :: ("sentences".toList.flatMap escape ++ '"' :: ':' :: '[' ::
      ((quote sentence).toList ++ [']', '}'])) := by
  simp [carrying, compact, compactMembers, compactAll, String.toList_append, quote]

/-- Every sentence is read from a body that holds it. -/
theorem read_carrying (sentence : String) :
    read sentences (carrying sentence) = .ok [sentence] := by
  let value := ':' :: '[' :: ((quote sentence).toList ++ [']', '}'])
  let text := '"' :: ("sentences".toList.flatMap escape ++ '"' :: value)
  have hname := string?_quote true "sentences" value
  have hmembers : membersFrom sentences (text.length + 1) none text = .ok ([sentence], []) := by
    rw [membersFrom, hname]
    show (memberValue sentences text.length none "sentences" value >>= _) = _
    rw [memberValue_sentences]
    rfl
  have hfield : fieldAt sentences (carrying sentence).toList = .ok ([sentence], []) := by
    rw [toList_carrying]
    exact hmembers
  rw [read, hfield]
  rfl

theorem utf8ByteSize_carrying_le (sentence : String) :
    (carrying sentence).utf8ByteSize ≤ 6 * sentence.utf8ByteSize + 18 := by
  have hsplit : carrying sentence = "\x7b\"sentences\":[\"" ++
      String.ofList (sentence.toList.flatMap escape) ++ "\"]\x7d" := by
    rw [← String.toList_inj, toList_carrying, toList_quote]
    simp [String.toList_append, escape]
  have hescape := utf8ByteSize_flatMap_escape_le sentence.toList
  rw [String.ofList_toList] at hescape
  rw [hsplit, String.utf8ByteSize_append, String.utf8ByteSize_append,
    show "\x7b\"sentences\":[\"".utf8ByteSize = 15 from rfl,
    show "\"]\x7d".utf8ByteSize = 3 from rfl]
  omega

end Body

/-! ## Blanks -/

namespace Utterance

open Text

variable {a b : String} {u : Utterance}

theorem splitStatement_eq_ok_congr {text : List Char} {parts : List Char × List Char} :
    splitStatement a text = .ok parts ↔ splitStatement b text = .ok parts := by
  unfold splitStatement
  split
  · simp
  · split
    · simp
    · split <;> simp

theorem readEnding_eq_ok_congr {rest : List Char} {value : Option (TruthValue Double)} :
    readEnding a rest = .ok value ↔ readEnding b rest = .ok value := by
  unfold readEnding
  split
  · rfl
  · split
    · simp
    · split <;> simp

/-- Blanks have no part in what a text says. -/
theorem parse_eq_ok_of_compact (h : compact a.toList = compact b.toList) (hu : parse a = .ok u) :
    parse b = .ok u := by
  obtain ⟨statement, c, rest, t, mark, value, hsplit, ht, hheads, hmark, hvalue, rfl⟩ :=
    parse_eq_ok.1 hu
  rw [h] at hsplit
  -- the whole text is only needed to say why it is refused
  exact parse_eq_ok.2 ⟨statement, c, rest, t, mark, value, splitStatement_eq_ok_congr.1 hsplit,
    ht, hheads, hmark, readEnding_eq_ok_congr.1 hvalue, rfl⟩

theorem isOk_parse_congr (h : compact a.toList = compact b.toList) :
    (parse a).isOk = (parse b).isOk := by
  cases ha : parse a with
  | ok u => rw [parse_eq_ok_of_compact h ha]
  | error cause =>
    cases hb : parse b with
    | ok u => exact absurd (ha.symm.trans (parse_eq_ok_of_compact h.symm hb)) (by simp)
    | error _ => rfl

theorem overshoots_of_compact {cycle : Cycle} (h : compact a.toList = compact b.toList)
    (ha : Overshoots a cycle) : Overshoots b cycle := by
  obtain ⟨u, hu, hlate⟩ := ha
  exact ⟨u, parse_eq_ok_of_compact h hu, hlate⟩

/-- A text with blanks after it. -/
def padded (text : String) (n : Nat) : String :=
  text ++ String.ofList (List.replicate n ' ')

theorem utf8ByteSize_padded (text : String) (n : Nat) :
    (padded text n).utf8ByteSize = text.utf8ByteSize + n := by
  have hblanks : (String.ofList (List.replicate n ' ')).utf8ByteSize = n := by
    induction n with
    | zero => rfl
    | succ n ih =>
      rw [List.replicate_succ, Json.utf8ByteSize_ofList_cons, ih, show ' '.utf8Size = 1 from rfl]
      omega
  rw [padded, String.utf8ByteSize_append, hblanks]

theorem compact_padded (text : String) (n : Nat) :
    compact (padded text n).toList = compact text.toList := by
  have hblank : isBlank ' ' = true := by decide
  simp [compact, padded, String.toList_append, hblank]

end Utterance

/-! ## Batches of one sentence -/

theorem Batch.check_singleton (text : String) : check [text] =
    if SyntaxError.maxSentenceBytes < text.utf8ByteSize then
      .error (.longSentence text.utf8ByteSize)
    else (Utterance.parse text).map fun _ => () := by
  have hcount : ¬ SyntaxError.maxSentences < [text].length := by simp [SyntaxError.maxSentences]
  rw [check, checkLimits, if_neg hcount, List.find?_singleton]
  by_cases hlong : SyntaxError.maxSentenceBytes < text.utf8ByteSize
  · rw [if_pos (decide_eq_true hlong), if_pos hlong]
    rfl
  · rw [if_neg (by simpa using hlong), if_neg hlong]
    show checkTexts [text] = _
    rw [checkTexts]
    cases Utterance.parse text <;> rfl

/-- A batch of one sentence is put in as the sentence alone, unless its text is too long. -/
theorem Handler.input_singleton {σ : Type} (e : Engine σ) (text : String) : input e [text] =
    if SyntaxError.maxSentenceBytes < text.utf8ByteSize then
      (reply 400 (.input (.error (Failure.text (.longSentence text.utf8ByteSize)).message)), e)
    else match e.submit text with
      | .ok (id, e) => (reply 200 (.input (.ok [id])), e)
      | .error (.text cause) => (reply 400 (.input (.error (Failure.text cause).message)), e)
      | .error (.fault _) => (.unanswered, e) := by
  rw [input, Batch.check_singleton]
  split_ifs
  · rfl
  · simp only [Engine.submitAll, Engine.submit, Sentence.parse]
    cases Utterance.parse text with
    | error cause => rfl
    | ok u =>
      simp only [Except.mapError, bind, Except.bind]
      cases Utterance.occurrenceAt e.cycle u.tense <;> rfl

theorem Engine.isOk_submit_iff {σ : Type} (e : Engine σ) (text : String) :
    (e.submit text).isOk = true ↔
      (Utterance.parse text).isOk = true ∧ ¬Utterance.Overshoots text e.cycle := by
  rw [← Sentence.isOk_parse_iff text e.ids, submit]
  cases Sentence.parse text e.ids e.cycle <;> rfl

theorem Handler.status_input_singleton {σ : Type} (e : Engine σ) (text : String) :
    (input e [text]).1.status = 200 ↔
      (e.submit text).isOk = true ∧ text.utf8ByteSize ≤ SyntaxError.maxSentenceBytes := by
  rw [input_singleton]
  split_ifs with hlong
  · simp [reply, hlong]
  · cases e.submit text with
    | ok x => simp [reply, Except.isOk, Except.toBool, Nat.not_lt.1 hlong]
    | error error => cases error <;> simp [reply, Response.unanswered, Except.isOk, Except.toBool]

theorem Handler.input_singleton_of_not_ok {σ : Type} {e : Engine σ} {text : String}
    (h : (input e [text]).1.status ≠ 200) :
    (input e [text]).2 = e ∧ ((input e [text]).1.status = 400 ∨
      Utterance.Overshoots text e.cycle ∧ (input e [text]).1 = .unanswered) := by
  rw [input_singleton] at h ⊢
  split_ifs at h ⊢
  · exact ⟨rfl, .inl rfl⟩
  · cases hsubmit : e.submit text with
    | ok _ => exact absurd (by rw [hsubmit]; rfl) h
    | error error =>
      cases error with
      | text cause => exact ⟨rfl, .inl rfl⟩
      | fault cause =>
        exact ⟨rfl, .inr ⟨(Engine.submit_eq_fault_iff.1 hsubmit).2, rfl⟩⟩

/-! ## Requests with one sentence -/

namespace Request

/-- A request that puts one sentence in: JSON that is not too large and holds its text. -/
structure Brings (r : Request) (text : String) : Prop where
  method : r.method = "POST"
  path : r.path = Endpoint.input.path
  json : (r.header? "content-type").any Handler.namesJson = true
  size : r.body.utf8ByteSize ≤ Handler.maxBodyBytes
  body : Body.read Body.sentences r.body = .ok [text]

/-- The plainest request that puts a sentence in. -/
def carrying (text : String) : Request :=
  { method := "POST", target := "/input", headers := [("content-type", "application/json")]
    body := Body.carrying text }

theorem path_carrying (text : String) : (carrying text).path = Endpoint.input.path := by
  simp only [path, carrying]
  decide +kernel

theorem json_carrying (text : String) :
    ((carrying text).header? "content-type").any Handler.namesJson = true := by
  simp only [header?, carrying]
  decide +kernel

theorem brings_carrying {text : String}
    (h : (Body.carrying text).utf8ByteSize ≤ Handler.maxBodyBytes) :
    (carrying text).Brings text where
  method := rfl
  path := path_carrying text
  json := json_carrying text
  size := h
  body := Body.read_carrying text

end Request

namespace Service

variable {σ : Type} [DrawSource σ] {s : Service σ} {r : Request} {text : String}

theorem respond_of_brings (hr : r.Brings text)
    (hpass : s.security.admits r.path (r.header? "authorization") = true) :
    s.respond r = ({ (Handler.input s.engine [text]).1 with
        allowOrigin := (Origins.ofSetting s.security.origins).mark (r.header? "origin") },
      { s with engine := (Handler.input s.engine [text]).2 }) := by
  have hmethod : Endpoint.input.allows r.method = true := by rw [hr.method]; rfl
  have hanswer : Handler.answer r s.engine .input = Handler.input s.engine [text] := by
    rw [Handler.answer, Handler.withBody, hr.body]
    simp [hr.json, hr.size]
  have hwants : r.wantsHead = false := by rw [Request.wantsHead, hr.method]; rfl
  rw [respond_eq hr.path hmethod, if_pos hpass, handled, hanswer]
  simp [sent, hwants]

/-- A text that is too long for a body is too long for a sentence, too. -/
theorem status_carrying_iff (hkey : s.security.apiKey = none) (text : String) :
    (s.respond (Request.carrying text)).1.status = 200 ↔
      (s.engine.submit text).isOk = true ∧ text.utf8ByteSize ≤ SyntaxError.maxSentenceBytes := by
  have hpass : s.security.admits (Request.carrying text).path
      ((Request.carrying text).header? "authorization") = true := by
    rw [Security.admits, Security.requiredKey?, hkey]
    rfl
  by_cases hsize : (Body.carrying text).utf8ByteSize ≤ Handler.maxBodyBytes
  -- A text that stays within the limit of the body is read as any other; a longer one is longer
  -- than a sentence may be, too.
  · rw [respond_of_brings (Request.brings_carrying hsize) hpass]
    exact Handler.status_input_singleton s.engine text
  · have hlarge : Handler.answer (Request.carrying text) s.engine .input =
        ({ status := 413 }, s.engine) := by
      have hbody : (Request.carrying text).body = Body.carrying text := rfl
      rw [Handler.answer, Handler.withBody, hbody]
      simp [Request.json_carrying, Nat.not_le.1 hsize]
    have hbytes := Body.utf8ByteSize_carrying_le text
    have hlimits : 6 * SyntaxError.maxSentenceBytes + 18 ≤ Handler.maxBodyBytes := by decide
    rw [respond_eq (Request.path_carrying text) rfl, if_pos hpass, handled, hlarge, status_sent]
    constructor
    · intro h
      cases h
    · rintro ⟨-, hshort⟩
      omega

/-- **Main theorem.** A request that puts one sentence in is answered as the engine takes the
sentence in alone, if its text has no more bytes than a sentence may have. Otherwise it is refused,
or not answered if the sentence is about a cycle that has no number, and nothing changes.
The engine does not count the bytes: with any number of blanks behind it, a text is taken in as it
is without them. Every text has a request that puts it in, or else it is too long for any. -/
theorem respond_input_iff (hr : r.Brings text)
    (hpass : s.security.admits r.path (r.header? "authorization") = true) :
    ((s.respond r).1.status = 200 ↔ (s.engine.submit text).isOk = true ∧
      text.utf8ByteSize ≤ SyntaxError.maxSentenceBytes) ∧
    (∀ id e, s.engine.submit text = .ok (id, e) →
      text.utf8ByteSize ≤ SyntaxError.maxSentenceBytes →
      (s.respond r).1.content = .json (some (.input (.ok [id]))) ∧
        (s.respond r).2 = { s with engine := e }) ∧
    ((s.respond r).1.status ≠ 200 → (s.respond r).2 = s ∧ ((s.respond r).1.status = 400 ∨
      Utterance.Overshoots text s.engine.cycle ∧
        (s.respond r).1.status = Response.unanswered.status)) ∧
    (∀ n, (Utterance.padded text n).utf8ByteSize = text.utf8ByteSize + n ∧
      (s.engine.submit (Utterance.padded text n)).isOk = (s.engine.submit text).isOk) ∧
    (s.security.apiKey = none → ∀ plain, (s.respond (Request.carrying plain)).1.status = 200 ↔
      (s.engine.submit plain).isOk = true ∧
        plain.utf8ByteSize ≤ SyntaxError.maxSentenceBytes) := by
  refine ⟨?_, fun id e hsubmit hshort => ?_, fun h => ?_, fun n => ?_, fun hkey plain => ?_⟩
  · rw [respond_of_brings hr hpass]
    exact Handler.status_input_singleton s.engine text
  · rw [respond_of_brings hr hpass, Handler.input_singleton, if_neg (Nat.not_lt.2 hshort), hsubmit]
    exact ⟨rfl, rfl⟩
  · rw [respond_of_brings hr hpass] at h ⊢
    obtain ⟨hsame, hstatus⟩ := Handler.input_singleton_of_not_ok h
    refine ⟨by rw [hsame], hstatus.imp_right fun hnone => ⟨hnone.1, ?_⟩⟩
    show (Handler.input s.engine [text]).1.status = _
    rw [hnone.2]
  · refine ⟨Utterance.utf8ByteSize_padded text n, ?_⟩
    have hcompact := Utterance.compact_padded text n
    have hlate : Utterance.Overshoots (Utterance.padded text n) s.engine.cycle ↔
        Utterance.Overshoots text s.engine.cycle :=
      ⟨Utterance.overshoots_of_compact hcompact, Utterance.overshoots_of_compact hcompact.symm⟩
    rw [Bool.eq_iff_iff, Engine.isOk_submit_iff, Engine.isOk_submit_iff, hlate,
      Utterance.isOk_parse_congr hcompact]
  · exact status_carrying_iff hkey plain

/-- A statement with many blanks after it is taken in, but not from a request. -/
theorem padded_statement_refused :
    let s : Service Script := ⟨{}, .start {} ⟨[]⟩⟩
    let text := Utterance.padded "(a --> b)." 4096
    SyntaxError.maxSentenceBytes < text.utf8ByteSize ∧ (s.engine.submit text).isOk = true ∧
      (s.respond (Request.carrying text)).1.status = 400 := by
  intro s text
  have hshort : "(a --> b).".utf8ByteSize = 10 := by decide +kernel
  have hlong : text.utf8ByteSize = 10 + 4096 := by rw [Utterance.utf8ByteSize_padded, hshort]
  have hbrings : (Request.carrying text).Brings text := by
    refine Request.brings_carrying ((Body.utf8ByteSize_carrying_le text).trans ?_)
    rw [hlong]
    decide
  have hbytes : SyntaxError.maxSentenceBytes < text.utf8ByteSize := by
    rw [hlong]
    decide
  have hiff := respond_input_iff (s := s) hbrings rfl
  have hrefused : (s.respond (Request.carrying text)).1.status ≠ 200 :=
    fun h => absurd (hiff.1.1 h).2 (Nat.not_le.2 hbytes)
  have hfits : ¬Utterance.Overshoots text s.engine.cycle :=
    Utterance.not_overshoots (by decide) text
  refine ⟨hbytes, ?_, (hiff.2.2.1 hrefused).2.resolve_right fun hnone => hfits hnone.1⟩
  rw [Engine.isOk_submit_iff, Utterance.isOk_parse_congr (Utterance.compact_padded _ _)]
  exact ⟨by decide +kernel, hfits⟩

end Service

end NonAxiomatic
