import NonAxiomatic.Proofs.Precedence
import NonAxiomatic.Service.Router

/-!
# What becomes of a batch in the queue

A batch that is accepted has been read and put into the queue, but that does not say that there was
room for it. A queue has a limited size by design, and drops what stands last without a word.

* `PriorityQueue.entries_putAll`: values of one priority come behind what ranks as high at least and
  before the rest, and what is too much is dropped from the end.
* `Engine.submitAll_eq_ok`: sentences that are put in one after the other are put in as they are
  read.
* `Engine.Reached.submitAll`: a batch leads from a state that can be reached to another one.
* `Service.respond_of_accepted`: only a batch that is put in is answered with identities.

**Theorem (`Service.queue_of_accepted`).** After a batch was accepted, the queue holds what came
before it, the batch, and the rest, as far as there is room. So nothing of it is lost while there is
room for all of it behind what ranks as high; otherwise its end is.
-/

namespace NonAxiomatic

namespace PriorityQueue

/-! ## Putting values of one priority in -/

section Values

variable {α : Type} {q : PriorityQueue α} {value : α} {priority : Double}

theorem insertByRank_of_head?_lt {e : UInt64 × α} {ds : List (UInt64 × α)}
    (h : ∀ d, ds.head? = some d → d.1 < e.1) : insertByRank e ds = e :: ds := by
  cases ds with
  | nil => rfl
  | cons d ds => rw [insertByRank, if_neg (UInt64.not_le.2 (h d rfl))]

/-- Where a list ends does not matter for what is put in before its end. -/
theorem take_insertByRank_take {e : UInt64 × α} {front back : List (UInt64 × α)}
    (hfront : ∀ d ∈ front, e.1 ≤ d.1) (hback : ∀ d, back.head? = some d → d.1 < e.1) (n : Nat) :
    (insertByRank e ((front ++ back).take n)).take n = (front ++ e :: back).take n := by
  have hhead : ∀ d, (back.take (n - front.length)).head? = some d → d.1 < e.1 := by
    intro d hd
    rw [List.head?_take] at hd
    split at hd
    · exact absurd hd (by simp)
    · exact hback d hd
  rw [List.take_append, insertByRank_append fun d hd => hfront d (List.mem_of_mem_take hd),
    insertByRank_of_head?_lt hhead, List.take_append, List.take_append, List.take_take,
    List.length_take, Nat.min_self]
  congr 1
  rw [show n - min n front.length = n - front.length by omega]
  cases n - front.length with
  | zero => rfl
  | succ m =>
    rw [List.take_succ_cons, List.take_succ_cons, List.take_take, Nat.min_eq_left (Nat.le_succ m)]

/-- The entries that a value comes behind. -/
def ahead (q : PriorityQueue α) (priority : Double) : List (UInt64 × α) :=
  q.entries.takeWhile fun d => rank priority ≤ d.1

/-- The entries that a value comes before. -/
def behind (q : PriorityQueue α) (priority : Double) : List (UInt64 × α) :=
  q.entries.dropWhile fun d => rank priority ≤ d.1

theorem ahead_append_behind (q : PriorityQueue α) (priority : Double) :
    q.ahead priority ++ q.behind priority = q.entries :=
  List.takeWhile_append_dropWhile

theorem rank_le_of_mem_ahead {d : UInt64 × α} (h : d ∈ q.ahead priority) :
    rank priority ≤ d.1 := by
  simpa using List.mem_takeWhile_imp h

theorem lt_rank_of_head?_behind {d : UInt64 × α} (h : (q.behind priority).head? = some d) :
    d.1 < rank priority := by
  have hhead := List.head?_dropWhile_not (fun d => decide (rank priority ≤ d.1)) q.entries
  rw [show List.dropWhile _ q.entries = q.behind priority from rfl, h] at hhead
  simpa using hhead

/-- Put values of one priority in. -/
def putAll (q : PriorityQueue α) (values : List α) (priority : Double) : PriorityQueue α :=
  values.foldl (fun q value => (q.put value priority).2) q

@[simp] theorem capacity_putAll (q : PriorityQueue α) (values : List α) (priority : Double) :
    (q.putAll values priority).capacity = q.capacity := by
  unfold putAll
  induction values generalizing q with
  | nil => rfl
  | cons value values ih => exact (ih _).trans (capacity_put q value priority)

theorem entries_put (h : q.size ≤ q.capacity) : (q.put value priority).2.entries =
    (insertByRank (rank priority, value) q.entries).take q.capacity := by
  have hlength : (insertByRank (rank priority, value) q.entries).length = q.entries.length + 1 :=
    length_insertByRank
  replace h : q.entries.length ≤ q.capacity := h
  unfold put
  dsimp only
  split
  · rename_i hfull
    show (insertByRank (rank priority, value) q.entries).dropLast = _
    rw [List.dropLast_eq_take, hlength, show q.capacity = q.entries.length by omega]
    rfl
  · show insertByRank (rank priority, value) q.entries = _
    rw [List.take_of_length_le (by omega)]

/-- What stands behind the new values is dropped first. -/
theorem entries_putAll (h : q.size ≤ q.capacity) (values : List α) (priority : Double) :
    (q.putAll values priority).entries = (q.ahead priority ++ values.map (rank priority, ·) ++
      q.behind priority).take q.capacity := by
  induction values using List.reverseRecOn with
  | nil =>
    rw [List.map_nil, List.append_nil, ahead_append_behind, List.take_of_length_le h]
    rfl
  | append_singleton values value ih =>
    have hsize : (q.putAll values priority).size ≤ (q.putAll values priority).capacity := by
      rw [size, ih, capacity_putAll]
      exact List.length_take_le _ _
    have hput : q.putAll (values ++ [value]) priority =
        ((q.putAll values priority).put value priority).2 := by
      simp only [putAll, List.foldl_append, List.foldl_cons, List.foldl_nil]
    -- What is as good as the new entry or better stands in front of it.
    have hfront : ∀ d ∈ q.ahead priority ++ values.map (rank priority, ·), rank priority ≤ d.1 := by
      intro d hd
      rcases List.mem_append.1 hd with hd | hd
      · exact rank_le_of_mem_ahead hd
      · obtain ⟨_, _, rfl⟩ := List.mem_map.1 hd
        exact UInt64.le_refl _
    rw [hput, entries_put hsize, ih, capacity_putAll]
    have hback : ∀ d, (q.behind priority).head? = some d → d.1 < rank priority :=
      fun _ => lt_rank_of_head?_behind
    rw [take_insertByRank_take (e := (rank priority, value)) hfront hback]
    simp

end Values

end PriorityQueue

/-! ## Batches that are put in -/

/-- The sentences that are put in where texts are read one after the other in a cycle. -/
def Sentence.intake (cycle : Cycle) :
    List String → IdSupply → Except SentenceError (List Sentence × IdSupply)
  | [], ids => return ([], ids)
  | text :: texts, ids => do
    let (s, ids) ← parse text ids cycle
    let (rest, ids) ← intake cycle texts ids
    return ({ s with fromInput := true } :: rest, ids)

theorem Sentence.intake_cons_eq_ok {cycle : Cycle} {text : String} {texts : List String}
    {ids ids' : IdSupply} {new : List Sentence} :
    intake cycle (text :: texts) ids = .ok (new, ids') ↔
      ∃ s supply rest, parse text ids cycle = .ok (s, supply) ∧
        intake cycle texts supply = .ok (rest, ids') ∧
        new = { s with fromInput := true } :: rest := by
  rw [intake]
  cases parse text ids cycle with
  | error cause => simp [bind, Except.bind]
  | ok x =>
    obtain ⟨s, supply⟩ := x
    cases h : intake cycle texts supply with
    | error cause => simp [bind, Except.bind, h]
    | ok y => simp [bind, Except.bind, pure, Except.pure, h, Prod.ext_iff, and_comm, eq_comm]

theorem Sentence.length_intake {cycle : Cycle} {texts : List String} {ids ids' : IdSupply}
    {new : List Sentence} (h : intake cycle texts ids = .ok (new, ids')) :
    new.length = texts.length := by
  induction texts generalizing ids new with
  | nil =>
    obtain ⟨rfl, _⟩ := Prod.mk.inj (Except.ok.inj h)
    rfl
  | cons text texts ih =>
    obtain ⟨_, _, rest, _, hrest, rfl⟩ := intake_cons_eq_ok.1 h
    exact congrArg (· + 1) (ih hrest)

namespace Engine

variable {σ : Type} {e e' : Engine σ} {texts : List String} {ids : List SentenceId}

theorem submitAll_cons_eq_ok {text : String} : e.submitAll (text :: texts) = (.ok ids, e') ↔
    ∃ id next rest, e.submit text = .ok (id, next) ∧ next.submitAll texts = (.ok rest, e') ∧
      ids = id :: rest := by
  rw [submitAll]
  cases e.submit text with
  | error cause => simp
  | ok x =>
    obtain ⟨id, next⟩ := x
    cases h : next.submitAll texts with
    | mk result last =>
      cases result with
      | error cause => simp [h, Except.map]
      | ok rest => simp [h, Except.map, and_comm, eq_comm]

/-- Sentences that are put in one after the other come into the queue as they are read. -/
theorem submitAll_eq_ok : e.submitAll texts = (.ok ids, e') ↔
    ∃ new supply, Sentence.intake e.cycle texts e.ids = .ok (new, supply) ∧
      ids = new.map (·.id) ∧
      e' = { e with ids := supply, input := e.input.putAll new inputPriority } := by
  induction texts generalizing e ids with
  | nil =>
    simp only [submitAll, Sentence.intake, pure, Except.pure, Prod.mk.injEq, Except.ok.injEq]
    constructor
    · rintro ⟨rfl, rfl⟩
      exact ⟨[], e.ids, ⟨rfl, rfl⟩, rfl, rfl⟩
    · rintro ⟨_, _, ⟨rfl, rfl⟩, rfl, rfl⟩
      exact ⟨rfl, rfl⟩
  | cons text texts ih =>
    rw [submitAll_cons_eq_ok]
    constructor
    · rintro ⟨id, next, rest, hsubmit, hrest, rfl⟩
      obtain ⟨s, supply, hs, rfl, rfl⟩ := submit_eq_ok.1 hsubmit
      obtain ⟨new, supply', hnew, rfl, rfl⟩ := ih.1 hrest
      exact ⟨_, supply', Sentence.intake_cons_eq_ok.2 ⟨s, supply, new, hs, hnew, rfl⟩, rfl, rfl⟩
    · rintro ⟨_, supply', hintake, rfl, rfl⟩
      obtain ⟨s, supply, new, hs, hnew, rfl⟩ := Sentence.intake_cons_eq_ok.1 hintake
      exact ⟨s.id, _, _, submit_eq_ok.2 ⟨s, supply, hs, rfl, rfl⟩,
        ih.2 ⟨new, supply', hnew, rfl, rfl⟩, rfl⟩

/-! ## Batches in engines that can be reached -/

section Reached

open PriorityQueue

variable [DrawSource σ] {settings : Settings} {submitted new : List Sentence} {supply : IdSupply}

theorem Reached.submitAll (h : Reached settings e submitted)
    (hintake : Sentence.intake e.cycle texts e.ids = .ok (new, supply)) :
    Reached settings { e with ids := supply, input := e.input.putAll new inputPriority }
      (submitted ++ new) := by
  induction texts generalizing e submitted new with
  | nil =>
    obtain ⟨rfl, rfl⟩ := Prod.mk.inj (Except.ok.inj hintake)
    rw [List.append_nil]
    exact h
  | cons text texts ih =>
    obtain ⟨s, _, rest, hs, hrest, rfl⟩ := Sentence.intake_cons_eq_ok.1 hintake
    have hnext := h.submit hs
    rw [perform, submit_eq_ok.2 ⟨s, _, hs, rfl, rfl⟩] at hnext
    have hlast := ih hnext hrest
    rwa [List.append_assoc] at hlast

/-- What ranks as high as a sentence that is put in was put in as well. -/
theorem Reached.ahead_eq (h : Reached settings e submitted) :
    e.input.ahead inputPriority =
      (submitted.take (max settings.inputCapacity 1)).map inputEntry := by
  obtain ⟨derived, hentries, hderived⟩ := h.serves.split
  have hnone : derived.takeWhile (fun d => decide (rank inputPriority ≤ d.1)) = [] := by
    cases derived with
    | nil => rfl
    | cons d derived => simpa using (hderived d (by simp)).rank_lt
  rw [ahead, hentries, List.takeWhile_append_of_pos, hnone, List.append_nil]
  intro d hd
  obtain ⟨s, _, rfl⟩ := List.mem_map.1 hd
  simp [inputEntry]

end Reached

end Engine

/-! ## Requests -/

/-- The identities of the sentences that were put in, if a response says so. -/
def Response.accepted? (r : Response) : Option (List SentenceId) :=
  match r.content with
  | .json (some (.input (.ok ids))) => some ids
  | _ => none

@[simp] theorem Response.accepted?_head (r : Response) : r.head.accepted? = none := by
  unfold head accepted?
  cases r.content <;> rfl

namespace Handler

variable {σ : Type} {e : Engine σ} {r : Request} {ids : List SentenceId}

theorem withBody_of_accepted {α : Type} {field : Field α} {answer : α → Response × Engine σ}
    (h : (withBody r e field answer).1.accepted? = some ids) :
    ∃ a, Body.read field r.body = .ok a ∧ withBody r e field answer = answer a := by
  unfold withBody at h ⊢
  split at h
  · cases h
  · rename_i htype
    rw [if_neg htype]
    split at h
    · cases h
    · rename_i hlength
      rw [if_neg hlength]
      cases hread : Body.read field r.body with
      | error fault => cases fault <;> simp [hread, Response.accepted?] at h
      | ok a => exact ⟨a, rfl, rfl⟩

theorem input_of_accepted {sentences : List String}
    (h : (input e sentences).1.accepted? = some ids) :
    (input e sentences).1.status = 200 ∧
      e.submitAll sentences = (.ok ids, (input e sentences).2) := by
  unfold input at h ⊢
  cases hcheck : Batch.check sentences with
  | error cause => simp [hcheck, reply, Response.accepted?] at h
  | ok _ =>
    cases hsubmit : e.submitAll sentences with
    | mk result next =>
      cases result with
      | error error =>
        rw [hcheck, hsubmit] at h
        cases error <;> cases h
      | ok given =>
        simp only [hcheck, hsubmit, reply, Response.accepted?, Option.some.injEq] at h
        subst h
        exact ⟨rfl, rfl⟩

variable [DrawSource σ]

/-- Only the endpoint for sentences answers with identities. -/
theorem answer_of_accepted {endpoint : Endpoint}
    (h : (answer r e endpoint).1.accepted? = some ids) :
    ∃ sentences, Body.read Body.sentences r.body = .ok sentences ∧
      answer r e endpoint = input e sentences := by
  cases endpoint with
  | input => exact withBody_of_accepted h
  | step =>
    obtain ⟨cycles, _, hanswer⟩ := withBody_of_accepted h
    rw [answer, hanswer, step] at h
    split_ifs at h
    · cases h
    · split at h <;> cases h
  | concept =>
    obtain ⟨text, _, hanswer⟩ := withBody_of_accepted h
    rw [answer, hanswer, concept] at h
    dsimp only at h
    split at h <;> cases h
  | health | status | outputs | snapshot => cases h

end Handler

namespace Service

variable {σ : Type} [DrawSource σ] {s : Service σ} {r : Request} {ids : List SentenceId}

theorem route_of_accepted (h : (s.route r).1.accepted? = some ids) :
    (s.route r).1.status = 200 ∧ ∃ sentences, Body.read Body.sentences r.body = .ok sentences ∧
      s.engine.submitAll sentences = (.ok ids, (s.route r).2.engine) := by
  unfold route at h ⊢
  cases hpath : Endpoint.ofPath? r.path with
  | none => simp [hpath, Response.accepted?] at h
  | some endpoint =>
    simp only [hpath] at h ⊢
    split at h
    · rename_i hallows
      rw [if_pos hallows]
      obtain ⟨sentences, hread, hanswer⟩ := Handler.answer_of_accepted h
      rw [hanswer] at h ⊢
      obtain ⟨hstatus, hsubmit⟩ := Handler.input_of_accepted h
      exact ⟨hstatus, sentences, hread, hsubmit⟩
    · cases h

/-- Only a batch that is put in is answered with identities. -/
theorem respond_of_accepted (h : (s.respond r).1.accepted? = some ids) :
    (s.respond r).1.status = 200 ∧ ∃ sentences, Body.read Body.sentences r.body = .ok sentences ∧
      s.engine.submitAll sentences = (.ok ids, (s.respond r).2.engine) := by
  replace h : (s.answer r).1.accepted? = some ids := h
  show (s.answer r).1.status = 200 ∧ ∃ sentences, _ ∧
    s.engine.submitAll sentences = (.ok ids, (s.answer r).2.engine)
  by_cases hmethod : (r.method == "OPTIONS") = true
  · simp [answer, hmethod, Response.accepted?] at h
  · by_cases hadmits : s.security.admits r.path (r.header? "authorization") = true
    · by_cases hhead : r.wantsHead = true
      · simp [answer, hmethod, hadmits, hhead] at h
      · have hanswer : s.answer r = s.route r := by simp [answer, hmethod, hadmits, hhead]
        rw [hanswer] at h ⊢
        exact route_of_accepted h
    · have hnone : unauthorized.accepted? = none := rfl
      simp [answer, hmethod, hadmits, apply_ite Response.accepted?, hnone] at h

open PriorityQueue Engine

/-- **Main theorem.** A batch that is accepted is read, and comes into the queue in the order in
which it was given: behind what ranks as high at least, and before the rest. What the queue has no
room for is dropped from the end, although the batch is accepted. So all of the batch is in the
queue if there is room for it behind what ranks as high; otherwise the end of it is dropped, and
everything of a lower rank. In every state that can be reached, what ranks as high are the sentences
that were put in since the last cycle. -/
theorem queue_of_accepted (hsize : s.engine.input.size ≤ s.engine.input.capacity)
    (haccepted : (s.respond r).1.accepted? = some ids) :
    let queue := s.engine.input
    let before := queue.ahead inputPriority
    let after := (s.respond r).2.engine.input
    (s.respond r).1.status = 200 ∧ ∃ texts new supply,
      Body.read Body.sentences r.body = .ok texts ∧
      Sentence.intake s.engine.cycle texts s.engine.ids = .ok (new, supply) ∧
      new.length = texts.length ∧ ids = new.map (·.id) ∧
      after.entries = (before ++ new.map inputEntry ++ queue.behind inputPriority).take
        queue.capacity ∧
      (before.length + new.length ≤ queue.capacity → ∀ t ∈ new, t ∈ after.toList) ∧
      (queue.capacity < before.length + new.length →
        after.entries = before ++ (new.take (queue.capacity - before.length)).map inputEntry) ∧
      ∀ settings submitted, Reached settings s.engine submitted →
        before = (submitted.take queue.capacity).map inputEntry ∧
        after.toList.filter (·.fromInput) = (submitted ++ new).take queue.capacity := by
  intro queue before after
  obtain ⟨hstatus, texts, hread, hsubmit⟩ := respond_of_accepted haccepted
  obtain ⟨new, supply, hintake, hids, hengine⟩ := submitAll_eq_ok.1 hsubmit
  have hafter : after = queue.putAll new inputPriority := congrArg Engine.input hengine
  have hentries : after.entries =
      (before ++ new.map inputEntry ++ queue.behind inputPriority).take queue.capacity := by
    rw [hafter]
    exact entries_putAll hsize new inputPriority
  -- Room for all of them, no room for some, and the view of all that was ever submitted.
  refine ⟨hstatus, texts, new, supply, hread, hintake, Sentence.length_intake hintake, hids,
    hentries, fun hroom t ht => ?_, fun hfull => ?_, fun settings submitted hreached => ?_⟩
  · have hmem : inputEntry t ∈ after.entries := by
      rw [hentries, List.take_append, List.take_of_length_le (by simpa using hroom)]
      exact List.mem_append_left _ (List.mem_append_right _ (List.mem_map_of_mem ht))
    exact List.mem_map.2 ⟨_, hmem, rfl⟩
  · have hbefore : before.length ≤ queue.capacity :=
      (List.takeWhile_sublist _).length_le.trans hsize
    rw [hentries, List.take_append_of_le_length (by simpa using hfull.le), List.take_append,
      List.take_of_length_le hbefore, List.map_take]
  · rw [hafter, hreached.serves.capacity_eq]
    exact ⟨hreached.ahead_eq, (hreached.submitAll hintake).serves.filter_eq⟩

/-- Of two sentences in a batch, both find room in this queue. -/
theorem queue_of_accepted_two :
    let s : Service Keystream := ⟨{}, .start { inputCapacity := 2 } (.ofSeed 7)⟩
    let r : Request := ⟨"POST", "/input", [("content-type", "application/json")],
      "\x7b\"sentences\": [\"(a --> b).\", \"(b --> c).\"]\x7d"⟩
    s.engine.input.size ≤ s.engine.input.capacity ∧
      (s.respond r).1.accepted? = some [⟨0⟩, ⟨1⟩] ∧
      ∃ new : List Sentence, new.map (·.id) = [⟨0⟩, ⟨1⟩] ∧
        ∀ t ∈ new, t ∈ (s.respond r).2.engine.input.toList := by
  intro s r
  have hsize : s.engine.input.size ≤ s.engine.input.capacity := by decide
  have haccepted : (s.respond r).1.accepted? = some [⟨0⟩, ⟨1⟩] := by decide +kernel
  obtain ⟨_, _, new, _, _, _, _, hids, _, hroom, _⟩ := queue_of_accepted hsize haccepted
  have hlength : new.length = 2 := by simpa using (congrArg List.length hids).symm
  exact ⟨hsize, haccepted, new, hids.symm, hroom (by rw [hlength]; decide)⟩

/-- Of two sentences in a batch, only the first finds room in this queue, although both are said to
be put in. -/
theorem accepted_not_queued :
    let s : Service Keystream := ⟨{}, .start { inputCapacity := 1 } (.ofSeed 7)⟩
    let r : Request := ⟨"POST", "/input", [("content-type", "application/json")],
      "\x7b\"sentences\": [\"(a --> b).\", \"(b --> c).\"]\x7d"⟩
    (s.respond r).1.status = 200 ∧ (s.respond r).1.accepted? = some [⟨0⟩, ⟨1⟩] ∧
      (s.respond r).2.engine.input.toList.map (·.id) = [⟨0⟩] := by
  decide +kernel

end Service

end NonAxiomatic
