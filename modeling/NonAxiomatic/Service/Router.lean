import NonAxiomatic.Engine.Step
import NonAxiomatic.Service.Message

/-!
# The service

How a request is answered (`Service.respond`). A question of a browser about what is allowed is
answered before anything else. Then the key is asked for, before it is told whether there is
such a path and whether it can be asked in this way.

* `keysMatch_iff`: two keys match when they are the same text.
* `admits_iff`: which requests pass when there is a key.
* `submitAll_nil`: where nothing is put in, nothing changes.
* `respond_of_not_admits`: whoever does not show the key learns and changes nothing.
-/

namespace NonAxiomatic

/-! ## Access to the service

Who may use the service: whoever shows its key, if it has one, and pages of the origins that it
allows. All of this is set by the variables of the environment (`Security.ofEnvironment`).
-/

structure Security where
  /-- The key that requests have to show; any request may pass when there is none. -/
  apiKey : Option String := none
  /-- How many requests are answered in a second; zero for any number. -/
  rateLimit : Nat := 0
  origins : Option String := none
deriving DecidableEq, Repr, Inhabited

namespace Security

/-! ### Keys -/

def padTo (n : Nat) (bytes : List UInt8) : List UInt8 :=
  bytes ++ List.replicate (n - bytes.length) 0

/-- Whether a key is the expected one. As many bytes are compared as the longer of the two has,
and the lengths after them. -/
def keysMatch (provided expected : String) : Bool :=
  let a := provided.toUTF8.data.toList
  let b := expected.toUTF8.data.toList
  let n := max a.length b.length
  padTo n a == padTo n b && a.length == b.length

/-- The key that requests have to show; an empty one protects nothing. -/
def requiredKey? (s : Security) : Option String := s.apiKey.filter fun key => !key.isEmpty

def openPath : String := "/health"

def keyPrefix : List Char := "Bearer ".toList

/-- The key that the value of a header shows; `none` if it holds anything but visible ASCII
characters, spaces and tabs. -/
def presentedKey? (value : String) : Option String :=
  let text := value.toList
  if text.all fun c => (0x20 ≤ c.toNat && c.toNat < 0x7F) || c == '\t' then
    some (String.ofList
      (if keyPrefix.isPrefixOf text then text.drop keyPrefix.length else text))
  else none

/-- Whether a request for a path may pass, given the value of its header for authorization. -/
def admits (s : Security) (path : String) (authorization : Option String) : Bool :=
  match s.requiredKey? with
  | none => true
  | some key =>
    path == openPath || (authorization.bind presentedKey?).any fun shown => keysMatch shown key

/-! ### The environment -/

def defaultRateLimit : Nat := 100

def readRateLimit (value : Option String) : Nat :=
  (value.bind fun v => Text.word? UInt32.size (Text.trim v.toList)).getD defaultRateLimit

/-- What the variables of the environment say. -/
def ofEnvironment (lookup? : String → Option String) : Security :=
  { apiKey := (lookup? "NARS_API_KEY").filter fun key => !key.isEmpty
    rateLimit := readRateLimit (lookup? "NARS_RATE_LIMIT")
    origins := lookup? "NARS_CORS_ORIGINS" }

def isLimited (s : Security) : Bool := s.rateLimit != 0

theorem padTo_inj {n : Nat} {a b : List UInt8} (hlen : a.length = b.length)
    (h : padTo n a = padTo n b) : a = b :=
  (List.append_inj h hlen).1

theorem keysMatch_iff {provided expected : String} :
    keysMatch provided expected = true ↔ provided = expected := by
  constructor
  · intro h
    simp only [keysMatch, Bool.and_eq_true, beq_iff_eq] at h
    have hbytes := Array.toList_inj.1 (padTo_inj h.2 h.1)
    exact String.toByteArray_inj.1 (ByteArray.ext hbytes)
  · rintro rfl
    simp [keysMatch]

theorem admits_iff {s : Security} {key path : String} {authorization : Option String}
    (h : s.requiredKey? = some key) :
    s.admits path authorization = true ↔
      path = openPath ∨ authorization.bind presentedKey? = some key := by
  simp only [admits, h, Bool.or_eq_true, beq_iff_eq, Option.any_eq_true, keysMatch_iff]
  constructor
  · rintro (hpath | ⟨shown, hshown, rfl⟩)
    · exact .inl hpath
    · exact .inr hshown
  · rintro (hpath | hshown)
    · exact .inl hpath
    · exact .inr ⟨key, hshown, rfl⟩

end Security

/-! ## Origins

The origins whose pages may use the service. They are configured as a list with commas; a single
star allows all of them, and without any usable entry those on the same machine are allowed.
-/

inductive Origins where
  | all
  | only (origins : List String)
deriving DecidableEq, Repr

namespace Origins

def nearby : Origins := .only ["http://localhost:3000", "http://localhost:8080",
  "http://127.0.0.1:3000", "http://127.0.0.1:8080"]

/-- Whether a text can be the value of a header: it holds no control characters but tabs. -/
def isHeaderValue (text : List Char) : Bool :=
  text.all fun c => (0x20 ≤ c.toNat && c.toNat != 0x7F) || c == '\t'

def ofSetting : Option String → Origins
  | none => nearby
  | some "*" => all
  | some list =>
    match ((Text.split ',' list.toList).map Text.trim).filter isHeaderValue with
    | [] => nearby
    | origins => only (origins.map String.ofList)

def mark (o : Origins) (origin : Option String) : Option String :=
  match o with
  | all => some "*"
  | only origins => origin.filter fun o => origins.contains o

end Origins

/-! ## Handling requests

What the service does at each of its endpoints. Sentences are put in all or not at all: the whole
batch is checked first. Bodies have to be JSON, and not too large.
-/

/-- Put sentences in one after the other, up to the first one that is refused. -/
def Engine.submitAll {σ : Type} (e : Engine σ) :
    List String → Except SentenceError (List SentenceId) × Engine σ
  | [] => (.ok [], e)
  | text :: texts =>
    match e.submit text with
    | .error cause => (.error cause, e)
    | .ok (id, e) =>
      let (ids, e) := e.submitAll texts
      (ids.map (id :: ·), e)

@[simp] theorem Engine.submitAll_nil {σ : Type} (e : Engine σ) :
    e.submitAll [] = (.ok [], e) := rfl

inductive Endpoint where
  | health | status | input | step | outputs | concept | snapshot
deriving DecidableEq, Repr

namespace Endpoint

def all : List Endpoint := [health, status, input, step, outputs, concept, snapshot]

def path : Endpoint → String
  | health => "/health"
  | status => "/status"
  | input => "/input"
  | step => "/step"
  | outputs => "/outputs"
  | concept => "/concept"
  | snapshot => "/snapshot"

def takesBody : Endpoint → Bool
  | input | step | concept => true
  | health | status | outputs | snapshot => false

def allows (e : Endpoint) (method : String) : Bool :=
  if e.takesBody then method == "POST" else method == "GET" || method == "HEAD"

def ofPath? (path : String) : Option Endpoint := all.find? fun e => e.path == path

end Endpoint

namespace Handler

variable {σ : Type}

/-! ### Replies -/

def reply (status : Nat) (r : Reply) : Response := { status, content := .json (some r) }

/-- Put a batch of sentences in. There is no answer where a fault is come to. -/
def input (e : Engine σ) (sentences : List String) : Response × Engine σ :=
  match Batch.check sentences with
  | .error cause => (reply 400 (.input (.error (Failure.text cause).message)), e)
  | .ok () =>
    match e.submitAll sentences with
    | (.ok ids, e) => (reply 200 (.input (.ok ids)), e)
    | (.error (.text cause), e) =>
      (reply 500 (.input (.error ("Submit failed: " ++ (Failure.text cause).message))), e)
    | (.error (.fault _), e) => (.unanswered, e)

def maxCycles : Nat := 10000

def status (e : Engine σ) : Response :=
  reply 200 (.status e.cycle e.memory.size e.input.size e.operations.length)

def concept (e : Engine σ) (text : String) : Response :=
  match Term.parse text with
  | .error cause => reply 400 (.concept (.error (Failure.text cause).message))
  | .ok t => reply 200 (.concept (.ok ((e.memory.concept? t).map fun c => (c, e.cycle))))

variable [DrawSource σ]

/-- Run cycles. There is no answer where a fault is come to. -/
def step (e : Engine σ) (cycles : Nat) : Response × Engine σ :=
  if maxCycles < cycles then
    (reply 400 (.step e.cycle (some (toString cycles ++ " cycles exceed the limit of " ++
      toString maxCycles ++ " per request"))), e)
  else
    match Engine.run cycles e with
    | (.ok (), e) => (reply 200 (.step e.cycle none), e)
    | (.error _, e) => (.unanswered, e)

/-! ### Bodies -/

def maxBodyBytes : Nat := 2 * 1024 * 1024

def namesJson (value : String) : Bool :=
  value.toList.all (fun c => (0x20 ≤ c.toNat && c.toNat < 0x7F) || c == '\t') &&
    (MediaType.read? value.toList).any MediaType.isJson

/-- Answer a request by what its body holds. -/
def withBody {α : Type} (r : Request) (e : Engine σ) (field : Field α)
    (answer : α → Response × Engine σ) : Response × Engine σ :=
  if !(r.header? "content-type").any namesJson then ({ status := 415 }, e)
  else if maxBodyBytes < r.body.utf8ByteSize then ({ status := 413 }, e)
  else match Body.read field r.body with
    | .ok a => answer a
    | .error .malformed => ({ status := 400 }, e)
    | .error .misshapen => ({ status := 422 }, e)

def answer (r : Request) (e : Engine σ) : Endpoint → Response × Engine σ
  | .health => (reply 200 .health, e)
  | .status => (status e, e)
  | .input => withBody r e Body.sentences (input e)
  | .step => withBody r e Body.cycles (step e)
  | .outputs =>
    let (outputs, e) := e.drain
    (reply 200 (.outputs outputs), e)
  | .concept => withBody r e Body.term fun text => (concept e text, e)
  | .snapshot => (reply 200 (.snapshot e.snapshot), e)

end Handler

/-! ## The service -/

/-- An engine that can be asked from outside. -/
structure Service (σ : Type) where
  security : Security
  engine : Engine σ

namespace Service

variable {σ : Type} [DrawSource σ]

/-- Answer a request that may pass. -/
def route (s : Service σ) (r : Request) : Response × Service σ :=
  match Endpoint.ofPath? r.path with
  | none => ({ status := 404 }, s)
  | some endpoint =>
    if endpoint.allows r.method then
      let (response, engine) := Handler.answer r s.engine endpoint
      (response, { s with engine })
    else ({ status := 405 }, s)

def unauthorized : Response := { status := 401, content := .text "Unauthorized" }

def answer (s : Service σ) (r : Request) : Response × Service σ :=
  if r.method == "OPTIONS" then ({ status := 200 }, s)
  else
    let (response, s) :=
      if s.security.admits r.path (r.header? "authorization") then s.route r
      else (unauthorized, s)
    (if r.wantsHead then response.head else response, s)

def respond (s : Service σ) (r : Request) : Response × Service σ :=
  let (response, s) := s.answer r
  let allowOrigin := (Origins.ofSetting s.security.origins).mark (r.header? "origin")
  ({ response with allowOrigin }, s)

theorem respond_of_not_admits {s : Service σ} {r : Request} (hmethod : r.method ≠ "OPTIONS")
    (h : s.security.admits r.path (r.header? "authorization") = false) :
    (s.respond r).2 = s ∧ (s.respond r).1.status = 401 := by
  have hanswer : s.answer r = (if r.wantsHead then unauthorized.head else unauthorized, s) := by
    simp [answer, hmethod, h]
  simp only [respond, hanswer, true_and]
  split <;> rfl

end Service

end NonAxiomatic
