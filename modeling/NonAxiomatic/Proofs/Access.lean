import NonAxiomatic.Proofs.Atomicity

/-!
# Who is let through

A service with a key lets a request through to a handler, or it refuses it and nothing changes. The
key may stand in the header for authorization as it is, or after the word that names the scheme.
That word is taken away wherever a header begins with it, so a key that begins with it itself is
not recognized as it is; and a header that is not plain shows no key at all.

* `Security.presentedKey?_eq_some`: which headers show a key.
* `Security.shows_iff_carries`: for which keys it is enough to carry them.
* `Service.respond_eq`: both ways in which it can go.

**Theorem (`Service.respond_by_key`).** A request that shows the key is answered by the handler that
it asks for. Any other is told that it may not pass, which no handler says, and the service stays as
it is.
-/

namespace NonAxiomatic

/-! ## Headers that show a key -/

/-- Whether all characters of a text are visible ones of ASCII, spaces or tabs. -/
def Security.isPlain (text : String) : Bool :=
  text.toList.all fun c => (0x20 ≤ c.toNat && c.toNat < 0x7F) || c == '\t'

namespace Request

/-- The header for authorization is the key, or the scheme and the key. -/
def Carries (r : Request) (key : String) : Prop :=
  ∃ value, r.header? "authorization" = some value ∧ (value = key ∨ value = "Bearer " ++ key)

/-- The header for authorization is plain, and it is the scheme and the key, or else the key, which
does not begin with the scheme then. -/
def Shows (r : Request) (key : String) : Prop :=
  ∃ value, r.header? "authorization" = some value ∧ Security.isPlain value ∧
    (value = "Bearer " ++ key ∨ value = key ∧ ¬ Security.keyPrefix <+: key.toList)

variable {r : Request} {key : String}

theorem Shows.carries (h : r.Shows key) : r.Carries key := by
  obtain ⟨value, hvalue, -, hkey⟩ := h
  exact ⟨value, hvalue, hkey.symm.imp_left And.left⟩

end Request

namespace Security

variable {key value : String}

theorem eq_scheme_append_iff :
    value = "Bearer " ++ key ↔ value.toList = keyPrefix ++ key.toList := by
  rw [← String.toList_inj, String.toList_append]
  rfl

theorem isPlain_scheme_append : isPlain ("Bearer " ++ key) = isPlain key := by
  have hscheme : ("Bearer ".toList.all fun c =>
      (0x20 ≤ c.toNat && c.toNat < 0x7F) || c == '\t') = true := by decide +kernel
  rw [isPlain, String.toList_append, List.all_append, hscheme, Bool.true_and, isPlain]

/-- The scheme is taken away once from a header that begins with it. -/
theorem presentedKey?_eq_some : presentedKey? value = some key ↔
    isPlain value ∧
      (value = "Bearer " ++ key ∨ value = key ∧ ¬ keyPrefix <+: key.toList) := by
  rw [eq_scheme_append_iff, presentedKey?, isPlain]
  split
  · rename_i hplain
    simp only [hplain, true_and, Option.some.injEq, ← String.toList_inj, String.toList_ofList]
    split
    · rename_i hscheme
      obtain ⟨rest, hrest⟩ := List.isPrefixOf_iff_prefix.1 hscheme
      rw [← hrest, List.drop_left, List.append_cancel_left_eq]
      refine ⟨.inl, fun h => h.elim id fun ⟨heq, hnot⟩ => absurd ?_ hnot⟩
      exact ⟨rest, heq⟩
    · rename_i hscheme
      rw [List.isPrefixOf_iff_prefix] at hscheme
      constructor
      · rintro heq
        exact .inr ⟨heq, heq ▸ hscheme⟩
      · rintro (heq | ⟨heq, -⟩)
        · exact absurd ⟨_, heq.symm⟩ hscheme
        · exact heq
  · rename_i hplain
    simp [hplain]

/-- A request passes exactly if it shows the key, where the path is not open to everyone. -/
theorem admits_iff_shows {s : Security} {r : Request} (h : s.requiredKey? = some key)
    (hpath : r.path ≠ openPath) :
    s.admits r.path (r.header? "authorization") = true ↔ r.Shows key := by
  rw [admits_iff h, or_iff_right hpath, Option.bind_eq_some_iff]
  exact exists_congr fun value => and_congr_right fun _ => presentedKey?_eq_some

/-- It is enough to carry a key that is plain and does not begin with the scheme, and no other. -/
theorem shows_iff_carries : (∀ r : Request, r.Shows key ↔ r.Carries key) ↔
    isPlain key ∧ ¬ keyPrefix <+: key.toList := by
  constructor
  · intro h
    let raw : Request :=
      { method := "GET", target := "/status", headers := [("authorization", key)] }
    have hraw : raw.header? "authorization" = some key := by
      have hname : ("authorization".toLower == "authorization") = true := by decide +kernel
      simp only [Request.header?, raw, List.find?_cons, hname, Option.map_some]
    obtain ⟨value, hvalue, hplain, hkey⟩ := (h raw).2 ⟨key, hraw, .inl rfl⟩
    obtain rfl : key = value := Option.some.inj (hraw.symm.trans hvalue)
    refine ⟨hplain, hkey.elim (fun hlong => ?_) And.right⟩
    -- no key is as long as itself with the scheme before it
    have hlength := congrArg List.length (eq_scheme_append_iff.1 hlong)
    rw [List.length_append, show keyPrefix.length = 7 from rfl] at hlength
    omega
  · rintro ⟨hplain, hscheme⟩ r
    refine ⟨Request.Shows.carries, fun ⟨value, hvalue, hkey⟩ => ⟨value, hvalue, ?_⟩⟩
    obtain rfl | rfl := hkey
    · exact ⟨hplain, .inr ⟨rfl, hscheme⟩⟩
    · exact ⟨isPlain_scheme_append.trans hplain, .inl rfl⟩

end Security

/-! ## Answers -/

namespace Endpoint

theorem ofPath?_path (endpoint : Endpoint) : ofPath? endpoint.path = some endpoint := by
  cases endpoint <;> rfl

theorem path_eq_openPath_iff {endpoint : Endpoint} :
    endpoint.path = Security.openPath ↔ endpoint = health := by
  cases endpoint <;> decide

theorem ne_options_of_allows {endpoint : Endpoint} {method : String}
    (h : endpoint.allows method = true) : method ≠ "OPTIONS" := by
  rintro rfl
  cases endpoint <;> exact absurd h (by decide)

end Endpoint

namespace Service

variable {σ : Type} [DrawSource σ] {s : Service σ} {r : Request} {endpoint : Endpoint}
  {key : String}

/-- A response as it is sent: without what it holds where only the head is wanted, and with the mark
for the origin. -/
def sent (s : Service σ) (r : Request) (response : Response) : Response :=
  { (if r.wantsHead then response.head else response) with
    allowOrigin := (Origins.ofSetting s.security.origins).mark (r.header? "origin") }

omit [DrawSource σ] in
@[simp] theorem status_sent (response : Response) :
    (s.sent r response).status = response.status := by
  unfold sent
  split <;> rfl

/-- What comes of a request that is let through to the handler of an endpoint. -/
def handled (s : Service σ) (r : Request) (endpoint : Endpoint) : Response × Service σ :=
  let (response, engine) := Handler.answer r s.engine endpoint
  (s.sent r response, { s with engine })

/-- What comes of a request that is not let through. -/
def refused (s : Service σ) (r : Request) : Response × Service σ := (s.sent r unauthorized, s)

theorem status_handled_ne : (s.handled r endpoint).1.status ≠ 401 := by
  rw [handled, status_sent]
  have hmem := Handler.status_answer r s.engine endpoint
  rintro h
  rw [h] at hmem
  exact absurd hmem (by decide)

/-- A request for something that there is passes by its header alone. -/
theorem respond_eq (hpath : r.path = endpoint.path) (hmethod : endpoint.allows r.method = true) :
    s.respond r = if s.security.admits r.path (r.header? "authorization")
      then s.handled r endpoint else s.refused r := by
  have hquestion : r.method ≠ "OPTIONS" := Endpoint.ne_options_of_allows hmethod
  have hroute : s.route r = ((Handler.answer r s.engine endpoint).1,
      { s with engine := (Handler.answer r s.engine endpoint).2 }) := by
    rw [route, hpath, Endpoint.ofPath?_path]
    simp only [hmethod, if_true]
  cases hadmits : s.security.admits r.path (r.header? "authorization") with
  | true => simp [respond, answer, hquestion, hadmits, hroute, handled, sent]
  | false => simp [respond, answer, hquestion, hadmits, refused, sent]

/-- **Main theorem.** A service with a key lets a request for one of its endpoints, other than the
one that is open to everyone, through to the handler of the endpoint if the request shows the key.
Otherwise it answers that the request may not pass, and stays as it is. No handler gives this
answer. It is enough for a request to carry the key if the key is plain and does not begin with the
scheme itself, and for no other keys. -/
theorem respond_by_key (hkey : s.security.apiKey = some key) (hfilled : key ≠ "")
    (hclosed : endpoint ≠ .health) (hpath : r.path = endpoint.path)
    (hmethod : endpoint.allows r.method = true) :
    (r.Shows key → s.respond r = s.handled r endpoint) ∧
    (¬ r.Shows key → (s.respond r).1.status = 401 ∧ (s.respond r).2 = s) ∧
    (s.handled r endpoint).1.status ≠ 401 ∧
    ((∀ q : Request, q.Shows key ↔ q.Carries key) ↔
      Security.isPlain key ∧ ¬ Security.keyPrefix <+: key.toList) := by
  have hrequired : s.security.requiredKey? = some key := by
    rw [Security.requiredKey?, hkey, Option.filter_some]
    simpa using hfilled
  have hadmits := Security.admits_iff_shows hrequired
    (fun h => hclosed (Endpoint.path_eq_openPath_iff.1 (hpath.symm.trans h)))
  refine ⟨fun h => ?_, fun h => ?_, status_handled_ne, Security.shows_iff_carries⟩
  · rw [respond_eq hpath hmethod, if_pos (hadmits.2 h)]
  · rw [respond_eq hpath hmethod, if_neg (mt hadmits.1 h)]
    exact ⟨by rw [refused, status_sent]; rfl, rfl⟩

/-- A key that begins with the scheme does not pass as it is, only with the scheme before it. -/
theorem raw_key_refused :
    let s : Service Script := ⟨{ apiKey := some "Bearer x" }, .start {} ⟨[]⟩⟩
    let ask := fun value => Request.mk "GET" "/status" [("Authorization", value)] ""
    (ask "Bearer x").Carries "Bearer x" ∧ (s.respond (ask "Bearer x")).1.status = 401 ∧
      (s.respond (ask "Bearer x")).2 = s ∧
      s.respond (ask "Bearer Bearer x") = s.handled (ask "Bearer Bearer x") .status := by
  intro s ask
  have hheader : ∀ value, (ask value).header? "authorization" = some value := fun value => by
    have hname : ("Authorization".toLower == "authorization") = true := by decide +kernel
    simp only [Request.header?, ask, List.find?_cons, hname, Option.map_some]
  have hraw : ¬ (ask "Bearer x").Shows "Bearer x" := by
    rintro ⟨value, hvalue, -, hkey⟩
    obtain rfl : "Bearer x" = value := Option.some.inj ((hheader _).symm.trans hvalue)
    exact absurd hkey (by decide +kernel)
  have hscheme : (ask "Bearer Bearer x").Shows "Bearer x" :=
    ⟨_, hheader _, by decide +kernel, .inl (by decide +kernel)⟩
  have hpath : ∀ value, (ask value).path = Endpoint.status.path := fun value => by
    simp only [Request.path, ask]
    decide +kernel
  have hkey : s.security.apiKey = some "Bearer x" := rfl
  have hby := fun value => respond_by_key hkey (by decide) (by decide) (hpath value) rfl
  exact ⟨⟨_, hheader _, .inl rfl⟩, ((hby _).2.1 hraw).1, ((hby _).2.1 hraw).2, (hby _).1 hscheme⟩

end Service

end NonAxiomatic
