import GitCinnabar.Channel
import GitCinnabar.HeaderArgs

/-!
# git-cinnabar: HTTP requests and their execution

`HttpClient`, `HttpRequest` and `HttpRequest::execute` (`hg_connect_http.rs`).  The client
decides which of its requests follow redirects: with `http.followRedirects=initial` only its
first, with `true` all of them.  `execute_once` hands a request to curl: a request with a
body is a `POST` of the body's full length, rewound to its start first, and never follows a
redirect; one without is a `GET`.  `execute` runs it once more after `HTTP_REAUTH`, and dies
naming the URL without its query.

**Model.**  A `Url` is its serialization up to the query, and the query; the `url` crate
percent-encodes every control byte, so neither holds a NUL, and the structure says so.
`query_pairs_mut().append_pair` is modelled on the bytes it writes.  A body is a `Cursor` or
a `File`: its bytes and the position of the next read; `stream_len_` (`util.rs`, not in the
sources) is modelled from its use as the body's full length.  curl reads the body through
`read_from_read` into buffers of sizes it chooses, until a read returns nothing; an attempt
of `execute_once` is given by those sizes and by the `Transfer` of `Channel`, whose status
and result decide how it ends.  A panic is `none`: `CString::new(..).unwrap()` on a NUL, and
the `unreachable!()` after a result of `HTTP_OK`.

**Results.**
* `request_followRedirects`: a client's request follows redirects under `initial` exactly
  when it is the client's first, and always under `true`.
* `run_onceResult`: in every interleaving of the worker, the channel and the caller,
  `execute_once` returns a response only for a status below 300, and an error only with the
  result of `run_one_slot`, never `HTTP_OK`.
* `execute_spec`: every attempt of `execute` sends the body from its first byte, however far
  the attempt before it read; the second attempt is made after `HTTP_REAUTH` only; and
  `execute` dies naming the request's URL without its query.
-/

namespace GitCinnabar

theorem upperHexDigit_ne_zero
    {d : Nat}
    (hd : d < 16) :
    upperHexDigit d ≠ 0 := by
  intro h
  have h' := congrArg UInt8.toNat h
  unfold upperHexDigit at h'
  split at h' <;> rw [toNat_toUInt8 (by omega)] at h' <;> simp at h'

/-- `form_urlencoded` never writes a NUL. -/
theorem zero_not_mem_formByte
    (b : UInt8) :
    (0 : UInt8) ∉ formByte b := by
  unfold formByte
  split_ifs with h1
  · rintro h
    simp only [List.mem_singleton] at h
    subst h
    simp [isFormUnreserved, isAsciiAlphanumeric] at h1
  · decide
  · have : b.toNat < 256 := b.val.isLt
    simp only [List.mem_cons, List.not_mem_nil, or_false, not_or]
    exact ⟨by decide, (upperHexDigit_ne_zero (by omega)).symm,
      (upperHexDigit_ne_zero (by omega)).symm⟩

theorem zero_not_mem_flatMap_formByte
    (s : Bytes) :
    (0 : UInt8) ∉ s.flatMap formByte := by
  simp only [List.mem_flatMap, not_exists, not_and]
  exact fun b _ => zero_not_mem_formByte b

/-- `form_urlencoded` of one pair: `name=value`. -/
def formPair (name value : Bytes) : Bytes :=
  name.flatMap formByte ++ 61 :: value.flatMap formByte

theorem zero_not_mem_formPair
    (name value : Bytes) :
    (0 : UInt8) ∉ formPair name value := by
  simp only [formPair, List.mem_append, List.mem_cons, not_or]
  exact ⟨zero_not_mem_flatMap_formByte name, by decide, zero_not_mem_flatMap_formByte value⟩

/-- `form_urlencoded` of pairs: the first, then each other after a `&`. -/
theorem formUrlencoded_cons
    (p : Bytes × Bytes) (args : List (Bytes × Bytes)) :
    formUrlencoded (p :: args) =
      formPair p.1 p.2 ++ (args.map fun p => 38 :: formPair p.1 p.2).flatten := by
  induction args generalizing p with
  | nil => simp [formUrlencoded, formPair]
  | cons q args ih =>
      have h := ih q
      simp only [formUrlencoded, List.map_cons] at h ⊢
      rw [joinWith_cons_cons, h]
      simp [formPair]

theorem zero_not_mem_formUrlencoded :
    ∀ args : List (Bytes × Bytes), (0 : UInt8) ∉ formUrlencoded args
  | [] => by simp [formUrlencoded]
  | p :: args => by
      rw [formUrlencoded_cons]
      simp only [List.mem_append, List.mem_flatten, List.mem_map, not_or, not_exists, not_and]
      refine ⟨zero_not_mem_formPair _ _, ?_⟩
      rintro _ ⟨q, -, rfl⟩ h
      rcases List.mem_cons.mp h with h | h
      · exact absurd h (by decide)
      · exact zero_not_mem_formPair _ _ h

namespace Http

/-- `http_follow_config` of git's `http.h`: `http.followRedirects`. -/
inductive FollowConfig where
  | followNone
  | followInitial
  | followAlways
deriving DecidableEq

/-- `HttpClient`: whether its next request is its first. -/
structure HttpClient where
  initialRequest : Bool
deriving DecidableEq

/-- `HttpClient::new`. -/
def HttpClient.new : HttpClient := ⟨true⟩

/-- A URL of the `url` crate: its serialization up to the query, and the query, neither
holding a NUL. -/
structure Url where
  base : Bytes
  query : Option Bytes
  base_nul : (0 : UInt8) ∉ base
  query_nul : ∀ q ∈ query, (0 : UInt8) ∉ q

/-- `Display for Url`: the serialization. -/
def Url.display (u : Url) : Bytes :=
  u.base ++ match u.query with
    | none => []
    | some q => 63 :: q

/-- `Url::set_query(None)`. -/
def Url.clearQuery (u : Url) : Url := ⟨u.base, none, u.base_nul, nofun⟩

/-- The query after `append_pair` on it: the pair, after a `&` when the query holds
something already. -/
def appendQuery (q : Bytes) (name value : Bytes) : Bytes :=
  q ++ (if q = [] then [] else [38]) ++ formPair name value

/-- `query_pairs_mut().append_pair(name, value)`. -/
def Url.appendPair (u : Url) (name value : Bytes) : Url where
  base := u.base
  query := some (appendQuery (u.query.getD []) name value)
  base_nul := u.base_nul
  query_nul q hq := by
    obtain rfl := Option.mem_some_iff.mp hq
    have hq₀ : (0 : UInt8) ∉ u.query.getD [] := by
      cases h : u.query with
      | none => simp
      | some q => exact u.query_nul q h
    simp only [appendQuery, List.mem_append, not_or]
    exact ⟨⟨hq₀, by split <;> decide⟩, zero_not_mem_formPair name value⟩

/-- `for (name, value) in args { query_pairs.append_pair(name, value) }`. -/
def Url.appendPairs (u : Url) (args : List (Bytes × Bytes)) : Url :=
  args.foldl (fun u p => u.appendPair p.1 p.2) u

@[simp] theorem Url.appendPair_base
    (u : Url) (name value : Bytes) :
    (u.appendPair name value).base = u.base :=
  rfl

@[simp] theorem Url.appendPair_query
    (u : Url) (name value : Bytes) :
    (u.appendPair name value).query = some (appendQuery (u.query.getD []) name value) :=
  rfl

theorem appendQuery_ne_nil
    (q name value : Bytes) :
    appendQuery q name value ≠ [] := by
  simp [appendQuery, formPair]

/-- Pairs appended to a query that holds something already: each after a `&`. -/
theorem Url.appendPairs_query
    {u : Url} {q : Bytes}
    (hq : u.query = some q)
    (hne : q ≠ []) :
    ∀ args, (u.appendPairs args).query =
      some (q ++ (args.map fun p => 38 :: formPair p.1 p.2).flatten)
  | [] => by simp [Url.appendPairs, hq]
  | p :: args => by
      have h := @Url.appendPairs_query (u.appendPair p.1 p.2) (q ++ 38 :: formPair p.1 p.2)
        (by simp [hq, appendQuery, hne]) (by simp) args
      simpa [Url.appendPairs] using h

/-- The query of the URL a command is sent to: the URL's query, then `cmd` and the given
arguments, form-urlencoded, after a `&` when the URL has a query already. -/
theorem Url.commandQuery
    (u : Url) (command : Bytes) (args : List (Bytes × Bytes)) :
    ((u.appendPair (ascii "cmd") command).appendPairs args).query =
      some (u.query.getD [] ++ (if u.query.getD [] = [] then [] else [38]) ++
        formUrlencoded ((ascii "cmd", command) :: args)) := by
  rw [Url.appendPairs_query (Url.appendPair_query _ _ _) (appendQuery_ne_nil _ _ _),
    formUrlencoded_cons]
  simp [appendQuery]

/-- A request body, a `Cursor` or a `File`: its bytes and the position of the next read. -/
structure Body where
  data : Bytes
  pos : Nat
deriving DecidableEq

/-- `HttpRequest`. -/
structure HttpRequest where
  url : Url
  headers : List (Bytes × Bytes)
  body : Option Body
  followRedirects : Bool

/-- `HttpRequest::new`. -/
def HttpRequest.new (url : Url) : HttpRequest := ⟨url, [], none, false⟩

/-- `HttpRequest::follow_redirects`. -/
def HttpRequest.setFollowRedirects (req : HttpRequest) (enable : Bool) : HttpRequest :=
  { req with followRedirects := enable }

/-- `HttpRequest::header`. -/
def HttpRequest.header (req : HttpRequest) (name value : Bytes) : HttpRequest :=
  { req with headers := req.headers ++ [(name, value)] }

/-- `HttpRequest::post_data`. -/
def HttpRequest.postData (req : HttpRequest) (data : Body) : HttpRequest :=
  { req with body := some data }

@[simp] theorem HttpRequest.header_url (req : HttpRequest) (name value : Bytes) :
    (req.header name value).url = req.url := rfl

@[simp] theorem HttpRequest.header_headers (req : HttpRequest) (name value : Bytes) :
    (req.header name value).headers = req.headers ++ [(name, value)] := rfl

@[simp] theorem HttpRequest.header_body (req : HttpRequest) (name value : Bytes) :
    (req.header name value).body = req.body := rfl

@[simp] theorem HttpRequest.header_followRedirects (req : HttpRequest) (name value : Bytes) :
    (req.header name value).followRedirects = req.followRedirects := rfl

@[simp] theorem HttpRequest.postData_url (req : HttpRequest) (data : Body) :
    (req.postData data).url = req.url := rfl

@[simp] theorem HttpRequest.postData_headers (req : HttpRequest) (data : Body) :
    (req.postData data).headers = req.headers := rfl

@[simp] theorem HttpRequest.postData_body (req : HttpRequest) (data : Body) :
    (req.postData data).body = some data := rfl

@[simp] theorem HttpRequest.postData_followRedirects (req : HttpRequest) (data : Body) :
    (req.postData data).followRedirects = req.followRedirects := rfl

/-- Headers added one after the other, in order. -/
@[simp] theorem HttpRequest.foldl_header
    (hs : List (Bytes × Bytes)) (req : HttpRequest) :
    hs.foldl (fun req h => req.header h.1 h.2) req = { req with headers := req.headers ++ hs } := by
  induction hs generalizing req with
  | nil => simp
  | cons h hs ih =>
      rw [List.foldl_cons, ih]
      simp [HttpRequest.header]

/-- `HttpClient::request` (lines 105-117). -/
def HttpClient.request (follow : FollowConfig) (c : HttpClient) (url : Url) :
    HttpRequest × HttpClient :=
  let req := HttpRequest.new url
  let req :=
    if (follow = .followInitial ∧ c.initialRequest = true) ∨ follow = .followAlways then
      req.setFollowRedirects true
    else req
  (req, if c.initialRequest then ⟨false⟩ else c)

/-- A client's request follows redirects under `initial` exactly when it is the client's
first, and always under `true`; every request after it is not the first. -/
theorem request_followRedirects
    (follow : FollowConfig) (c : HttpClient) (url : Url) :
    (c.request follow url).1.followRedirects =
        decide ((follow = .followInitial ∧ c.initialRequest = true) ∨ follow = .followAlways) ∧
      (c.request follow url).1.url = url ∧
      (c.request follow url).1.headers = [] ∧
      (c.request follow url).1.body = none ∧
      (c.request follow url).2 = ⟨false⟩ := by
  obtain ⟨_ | _⟩ := c <;> unfold HttpClient.request <;> split <;>
    simp_all [HttpRequest.setFollowRedirects, HttpRequest.new]

/-! ## The body and curl -/

/-- `Read::read` of the body into a buffer of `n` bytes: what is left from the position, up
to `n` bytes. -/
def Body.read (n : Nat) (b : Body) : Bytes × Body :=
  ((b.data.drop b.pos).take n, { b with pos := b.pos + ((b.data.drop b.pos).take n).length })

/-- curl reading the body through `read_from_read` (lines 551-560) into buffers of the given
sizes, until a read returns nothing: the bytes it sends, and the body after. -/
def upload : List Nat → Body → Bytes × Body
  | [], b => ([], b)
  | n :: ns, b =>
      if (b.read n).1 = [] then ([], (b.read n).2)
      else ((b.read n).1 ++ (upload ns (b.read n).2).1, (upload ns (b.read n).2).2)

/-- With non-empty buffers, curl sends the body from its position on, as many bytes as its
buffers hold. -/
theorem upload_fst
    {ns : List Nat}
    (hns : ∀ n ∈ ns, 0 < n) :
    ∀ b : Body, (upload ns b).1 = (b.data.drop b.pos).take (ns.foldr (· + ·) 0) := by
  induction ns with
  | nil => simp [upload]
  | cons n ns ih =>
      intro b
      have hn : 0 < n := hns n (List.mem_cons_self n ns)
      simp only [upload, Body.read, List.foldr_cons]
      split
      · next hr =>
          rw [List.take_eq_nil_iff] at hr
          rcases hr with hr | hr
          · omega
          · simp [hr]
      · have hd : b.data.drop (b.pos + ((b.data.drop b.pos).take n).length) =
            (b.data.drop b.pos).drop n := by
          rw [← List.drop_drop, List.length_take]
          rcases le_total n (b.data.drop b.pos).length with h | h
          · rw [Nat.min_eq_left h]
          · rw [Nat.min_eq_right h, List.drop_eq_nil_of_le h, List.drop_eq_nil_of_le (le_refl _)]
        rw [ih fun m hm => hns m (List.mem_cons_of_mem n hm)]
        dsimp only
        rw [hd, List.take_add]

/-- curl moves the position of the body only. -/
theorem upload_snd :
    ∀ (ns : List Nat) (b : Body), (upload ns b).2 = { b with pos := (upload ns b).2.pos }
  | [], _ => rfl
  | n :: ns, b => by
      unfold upload
      split
      · rfl
      · rw [upload_snd ns]
        rfl

/-- `format!("{}: {}", name, value)`. -/
def headerLine (h : Bytes × Bytes) : Bytes := h.1 ++ 58 :: 32 :: h.2

/-- The options `execute_once` gives curl that depend on the request (lines 145-194). -/
structure CurlOptions where
  url : Bytes
  post : Bool
  postFieldSize : Option Nat
  followLocation : Option Bool
  httpGet : Bool
  headerLines : List Bytes

/-- The options of a request, and its body rewound by `seek(SeekFrom::Start(0))`: a body is
posted with its full length, `Expect:` and no redirect followed; without one, a `GET` that
follows redirects when the request does. -/
def curlOptions (req : HttpRequest) : CurlOptions × Option Body :=
  match req.body with
  | some body =>
      (⟨req.url.display, true, some body.data.length, some false, false,
        ascii "Expect:" :: req.headers.map headerLine⟩, some { body with pos := 0 })
  | none =>
      (⟨req.url.display, false, none, if req.followRedirects then some true else none, true,
        req.headers.map headerLine⟩, none)

/-- The curl setup of `execute_once`; `none` when `CString::new(..).unwrap()` meets a NUL in
the URL or in a header line. -/
def curlSetup (req : HttpRequest) : Option (CurlOptions × Option Body) :=
  if (0 : UInt8) ∈ req.url.display ∨ ∃ h ∈ req.headers, (0 : UInt8) ∈ headerLine h then none
  else some (curlOptions req)

theorem Url.zero_not_mem_display
    (u : Url) :
    (0 : UInt8) ∉ u.display := by
  unfold Url.display
  split
  · simpa using u.base_nul
  · next q hq =>
      simp only [List.mem_append, List.mem_cons, not_or]
      exact ⟨u.base_nul, by decide, u.query_nul q hq⟩

/-- A request whose header lines hold no NUL is handed to curl. -/
theorem curlSetup_eq_some
    {req : HttpRequest}
    (hlines : ∀ h ∈ req.headers, (0 : UInt8) ∉ headerLine h) :
    curlSetup req = some (curlOptions req) := by
  rw [curlSetup, if_neg]
  rintro (h | ⟨h, hh, h0⟩)
  · exact req.url.zero_not_mem_display h
  · exact hlines h hh h0

/-! ## How `execute_once` ends -/

/-- `HTTP_REAUTH` of git's `http.h`. -/
def httpReauth : Int := 4

/-- How `execute_once` ends for a transfer (lines 196-224): with the response for a status
below 300, else with the result of `run_one_slot`; `none` is the `unreachable!()` after a
result of `HTTP_OK`. -/
def onceResult (t : Transfer) : Option (Except Int Unit) :=
  if t.httpStatus < 300 then some (.ok ())
  else if t.result = httpOk then none
  else some (.error t.result)

/-- What the caller of `execute_once` has come to agrees with the transfer: a response only
for a status below 300, an error only with the result of `run_one_slot`. -/
structure Settled (t : Transfer) (s : HttpState) : Prop where
  reading : ∀ c, s.reader = .reading c → t.httpStatus < 300
  failed : ∀ r, s.reader = .failed r → 300 ≤ t.httpStatus ∧ r = t.result ∧ r ≠ httpOk

section Settled

variable {t : Transfer} {s s' : HttpState}

/-- A step that leaves the reader alone keeps what it has come to. -/
theorem Settled.of_reader
    (hs : Settled t s)
    (h : s'.reader = s.reader) :
    Settled t s' :=
  ⟨fun c hc => hs.reading c (h ▸ hc), fun r hr => hs.failed r (h ▸ hr)⟩

/-- Every step keeps `Settled`, in a state of the channel's invariant. -/
theorem Settled.step
    {e : Event}
    (hi : Inv t s)
    (hs : Settled t s)
    (h : step t s e = some s') :
    Settled t s' := by
  cases e with
  | write =>
      obtain ⟨-, -, -, -, rfl⟩ := write_eq_some h
      exact hs.of_reader rfl
  | finish =>
      obtain ⟨-, -, rfl⟩ := finish_eq_some h
      exact hs.of_reader rfl
  | recvInfo =>
      obtain ⟨hr, ⟨info, q, hq, rfl⟩ | ⟨d, q, -, rfl⟩ | ⟨-, -, rfl⟩⟩ := recvInfo_eq_some h
      · obtain ⟨q', hq', -⟩ := hi.head hr (hi.first_eq_false (by simp [hq]))
        rw [hq] at hq'
        simp only [infoMsg, List.cons.injEq, Sum.inl.injEq] at hq'
        obtain ⟨rfl, rfl⟩ := hq'
        constructor <;> intro x hx <;> split at hx <;> simp_all
      · exact ⟨nofun, nofun⟩
      · exact ⟨nofun, nofun⟩
  | drain =>
      obtain ⟨hr, ⟨m, q, -, rfl⟩ | ⟨-, -, rfl⟩⟩ := drain_eq_some h
      · exact hs.of_reader rfl
      · refine ⟨fun c hc => (by split at hc <;> cases hc), fun r hr' => ?_⟩
        split at hr'
        · cases hr'
        · next hok =>
            cases hr'
            exact ⟨hi.draining hr, rfl, hok⟩
  | read n =>
      obtain ⟨cursor, hr, ⟨-, -, rfl⟩ | ⟨-, ⟨data, q, -, rfl⟩ | ⟨info, q, -, rfl⟩ | ⟨-, -, rfl⟩⟩⟩ :=
        read_eq_some h
      · exact ⟨fun _ _ => hs.reading cursor hr, nofun⟩
      · exact ⟨fun _ _ => hs.reading cursor hr, nofun⟩
      · exact ⟨nofun, nofun⟩
      · exact hs.of_reader rfl

end Settled

/-- Every run keeps `Settled`. -/
theorem Settled.run
    {t : Transfer} {s : HttpState}
    (hi : Inv t s)
    (hs : Settled t s) :
    ∀ {es : List Event} {s' : HttpState}, Http.run t es s = some s' → Settled t s'
  | [], _, h => by
      cases h
      exact hs
  | e :: es, s', h => by
      obtain ⟨s₁, h₁, h⟩ := Option.bind_eq_some.mp h
      exact Settled.run (hi.step h₁) (hs.step hi h₁) h

/-- In every interleaving of the worker, the channel and the caller, `execute_once` returns
what `onceResult` says: a response only for a status below 300, an error only with the
result of `run_one_slot`, and an `unreachable!()` only after `HTTP_OK`. -/
theorem run_onceResult
    {t : Transfer} {es : List Event} {s : HttpState}
    (h : Http.run t es (init t) = some s) :
    (∀ c, s.reader = .reading c → onceResult t = some (.ok ())) ∧
      (∀ r, s.reader = .failed r → onceResult t = some (.error r)) ∧
      (s.reader = .unreachable → onceResult t = none) := by
  have hs := Settled.run (init_inv t) ⟨nofun, nofun⟩ h
  have hi := (init_inv t).run h
  refine ⟨fun c hc => if_pos (hs.reading c hc), fun r hr => ?_, fun hu => ?_⟩
  · obtain ⟨hst, rfl, hok⟩ := hs.failed r hr
    simp [onceResult, hok, Nat.not_lt.mpr hst]
  · obtain ⟨hok, hst⟩ := hi.unreachable hu
    simp [onceResult, hok, Nat.not_lt.mpr hst]

/-- A request refused for authentication: the error path drains the chunk, joins the worker
and returns `HTTP_REAUTH`. -/
theorem run_onceResult_reauth :
    Http.run ⟨401, [ascii "x"], httpReauth⟩ [.write, .finish, .recvInfo, .drain, .drain]
        (init ⟨401, [ascii "x"], httpReauth⟩) =
      some ⟨⟨false, [], true⟩, [], .failed httpReauth, [], false⟩ ∧
    onceResult ⟨401, [ascii "x"], httpReauth⟩ = some (.error httpReauth) :=
  ⟨rfl, (@run_onceResult ⟨401, [ascii "x"], httpReauth⟩ [.write, .finish, .recvInfo, .drain, .drain]
    ⟨⟨false, [], true⟩, [], .failed httpReauth, [], false⟩ rfl).2.1 httpReauth rfl⟩

/-! ## `execute` -/

/-- An attempt of `execute_once`: the transfer curl performs, and the sizes of the buffers it
reads the body into. -/
structure Attempt where
  transfer : Transfer
  bodyReads : List Nat

/-- curl sending the body of a request, if it has one: the bytes sent, and the body after. -/
def sendBody (reads : List Nat) : Option Body → Bytes × Option Body
  | some b => ((upload reads b).1, some (upload reads b).2)
  | none => ([], none)

/-- `execute_once` (lines 142-225): curl set up from the request, the body rewound and sent,
and the end of the attempt: the response over the transfer, or the result of `run_one_slot`
with the request, its body where curl left it. -/
def executeOnce (a : Attempt) (req : HttpRequest) :
    Option (Bytes × Except (Int × HttpRequest) Transfer) := do
  let setup ← curlSetup req
  let outcome ← onceResult a.transfer
  let sent := sendBody a.bodyReads setup.2
  pure (sent.1, match outcome with
    | .ok () => .ok a.transfer
    | .error r => .error (r, { req with body := sent.2 }))

/-- The message `execute` dies with: `unable to access '{}': {}`, with the URL without its
query and curl's error. -/
def unableToAccess (url : Url) (curlError : Bytes) : Bytes :=
  ascii "unable to access '" ++ url.clearQuery.display ++ ascii "': " ++ curlError

/-- `HttpRequest::execute` (lines 227-245): a second attempt after `HTTP_REAUTH`; the bytes
each attempt sends, and the response or the message `execute` dies with. -/
def execute (a₁ a₂ : Attempt) (curlError : Bytes) (req : HttpRequest) :
    Option (List Bytes × Except Bytes Transfer) := do
  let (sent₁, r₁) ← executeOnce a₁ req
  match r₁ with
  | .ok resp => pure ([sent₁], .ok resp)
  | .error (result, this) =>
      if result = httpReauth then do
        let (sent₂, r₂) ← executeOnce a₂ this
        pure ([sent₁, sent₂], r₂.mapError fun e => unableToAccess e.2.url curlError)
      else pure ([sent₁], .error (unableToAccess this.url curlError))

/-- What curl sends of a request's body with buffers of these sizes: its first bytes. -/
def bodyPrefix (body : Option Body) (reads : List Nat) : Bytes :=
  match body with
  | some b => b.data.take (reads.foldr (· + ·) 0)
  | none => []

/-- An attempt sends the body from its first byte, wherever an attempt before left it, and
ends with the response for a status below 300, else with the result of `run_one_slot` and
the request, its body moved. -/
theorem executeOnce_spec
    {a : Attempt} {req : HttpRequest}
    (hlines : ∀ h ∈ req.headers, (0 : UInt8) ∉ headerLine h)
    (hreads : ∀ n ∈ a.bodyReads, 0 < n)
    (hok : a.transfer.result = httpOk → a.transfer.httpStatus < 300) :
    ∃ pos, executeOnce a req = some (bodyPrefix req.body a.bodyReads,
      if a.transfer.httpStatus < 300 then .ok a.transfer
      else .error (a.transfer.result, { req with body := req.body.map ({ · with pos }) })) := by
  have hres : onceResult a.transfer = some
      (if a.transfer.httpStatus < 300 then .ok () else .error a.transfer.result) := by
    unfold onceResult
    split
    · rfl
    · next hst => rw [if_neg (fun h => hst (hok h))]
  cases hb : req.body with
  | none =>
      refine ⟨0, ?_⟩
      by_cases hst : a.transfer.httpStatus < 300 <;>
        simp [executeOnce, curlSetup_eq_some hlines, hres, curlOptions, hb, sendBody,
          bodyPrefix, hst]
  | some b =>
      refine ⟨(upload a.bodyReads { b with pos := 0 }).2.pos, ?_⟩
      have hsnd := upload_snd a.bodyReads { b with pos := 0 }
      by_cases hst : a.transfer.httpStatus < 300 <;>
        simp [executeOnce, curlSetup_eq_some hlines, hres, curlOptions, hb, sendBody,
          bodyPrefix, hst, upload_fst hreads, ← hsnd]

/-- Every attempt of `execute` sends the body from its first byte, however far the attempt
before it read; a second attempt is made after `HTTP_REAUTH` only; and `execute` dies naming
the request's URL without its query. -/
theorem execute_spec
    {a₁ a₂ : Attempt} {req : HttpRequest}
    (curlError : Bytes)
    (hlines : ∀ h ∈ req.headers, (0 : UInt8) ∉ headerLine h)
    (hreads₁ : ∀ n ∈ a₁.bodyReads, 0 < n)
    (hreads₂ : ∀ n ∈ a₂.bodyReads, 0 < n)
    (hok₁ : a₁.transfer.result = httpOk → a₁.transfer.httpStatus < 300)
    (hok₂ : a₂.transfer.result = httpOk → a₂.transfer.httpStatus < 300) :
    execute a₁ a₂ curlError req = some
      (if a₁.transfer.httpStatus < 300 ∨ a₁.transfer.result ≠ httpReauth then
          [bodyPrefix req.body a₁.bodyReads]
        else [bodyPrefix req.body a₁.bodyReads, bodyPrefix req.body a₂.bodyReads],
        if a₁.transfer.httpStatus < 300 then .ok a₁.transfer
        else if a₁.transfer.result ≠ httpReauth then .error (unableToAccess req.url curlError)
        else if a₂.transfer.httpStatus < 300 then .ok a₂.transfer
        else .error (unableToAccess req.url curlError)) := by
  obtain ⟨pos, h₁⟩ := executeOnce_spec hlines hreads₁ hok₁
  by_cases hst₁ : a₁.transfer.httpStatus < 300
  · simp [execute, h₁, hst₁]
  · let req' : HttpRequest := { req with body := req.body.map ({ · with pos }) }
    have hprefix : bodyPrefix req'.body a₂.bodyReads = bodyPrefix req.body a₂.bodyReads := by
      cases h : req.body <;> simp [req', h, bodyPrefix]
    obtain ⟨_, h₂⟩ := @executeOnce_spec a₂ req' hlines hreads₂ hok₂
    by_cases hre : a₁.transfer.result = httpReauth
    · by_cases hst₂ : a₂.transfer.httpStatus < 300 <;>
        simp [execute, h₁, h₂, hst₁, hre, hst₂, hprefix, req', Except.mapError]
    · simp [execute, h₁, hst₁, hre]

/-- A body whose position stands at its third byte is sent whole by both attempts when the
first is refused with `HTTP_REAUTH`; the second gets the response. -/
theorem execute_spec_reauth :
    execute ⟨⟨401, [], httpReauth⟩, [2, 2]⟩ ⟨⟨200, [ascii "ok"], httpOk⟩, [8]⟩ (ascii "e")
        ⟨⟨ascii "r", none, by decide, nofun⟩,
          [(ascii "Content-Type", ascii "application/mercurial-0.1")], some ⟨ascii "abc", 2⟩,
          false⟩ =
      some ([ascii "abc", ascii "abc"], .ok ⟨200, [ascii "ok"], httpOk⟩) := by
  rw [execute_spec (ascii "e") (by decide) (by decide) (by decide) (by decide) (by decide)]
  rfl

end Http

end GitCinnabar
