import GitCinnabar.Request
import GitCinnabar.Checkpoint

/-!
# git-cinnabar: the commands of an HTTP connection

`HgHttpConnection` (`hg_connect_http.rs`) sends each command of the Mercurial wire protocol
as an HTTP request of its own.  `start_command_request` builds it: the command goes in the
`cmd` query parameter, and the arguments in `X-HgArg-N` headers when the server's
`httpheader` capability gives a budget, else in the query.  `simple_command`,
`changegroup_command` and `push_command` add what their command needs, and
`handle_redirect` moves the connection to where the server redirected it.
`get_http_connection` opens the connection with a `capabilities` request.

**Model.**  The capabilities are the name and value pairs the server sent (`HgCapabilities`
is not in the sources; it is modelled from its use here, `get_capability` finding the first
of a name).  `to_str().ok()` holds of valid UTF-8, the strings that bstr's lossy `Display`
leaves as they are.  A connection's life is its `capabilities` request, then its commands
in order, each with where the server redirected its response; what the responses hold is
the subject of `Replies`.

**Results.**
* `startCommandRequest_spec`: whatever the budget, a command's request carries its
  arguments exactly once: in header mode the query holds `cmd` only and the `X-HgArg-N`
  values make up the form-urlencoded arguments; otherwise the query ends with them and no
  such header is sent.  `Accept` comes first.
* `connection_followRedirects`: over a connection's life, the `capabilities` request follows
  redirects under `http.followRedirects=initial` and `true`, and every command after it
  under `true` only.
* `connection_curlSetup`: every request of a connection is handed to curl: no NUL stands in
  its URL or its header lines, so `CString::new(..).unwrap()` never panics.
-/

namespace GitCinnabar

namespace Http

/-- `HgHttpConnection`: the server's capabilities, the URL and the client. -/
structure HgHttpConnection where
  capabilities : List (Bytes × Bytes)
  url : Url
  client : HttpClient

/-- `get_capability`: the value of the first capability of the name. -/
def HgHttpConnection.getCapability (conn : HgHttpConnection) (name : Bytes) : Option Bytes :=
  conn.capabilities.lookup name

/-- `to_str().ok()`: valid UTF-8, which bstr's lossy `Display` leaves as it is. -/
def isUtf8 (s : Bytes) : Bool := displayBytes s == s

/-- The budget of `start_command_request` (lines 359-363): `httpheader` as a `usize`, else 0. -/
def HgHttpConnection.httpheader (conn : HgHttpConnection) : Nat :=
  ((((conn.getCapability (ascii "httpheader")).filter isUtf8).bind usizeFromBytes).map
    Fin.val).getD 0

/-- The URL of a command (lines 365-393): `cmd`, then the arguments unless they go in
headers. -/
def HgHttpConnection.commandUrl (conn : HgHttpConnection) (command : Bytes)
    (args : List (Bytes × Bytes)) : Url :=
  let url := conn.url.appendPair (ascii "cmd") command
  if 0 < conn.httpheader ∧ args ≠ [] then url else url.appendPairs args

/-- `start_command_request` (lines 351-401): the `X-HgArg-N` headers, and the client's
request for the command's URL with `Accept` and those headers. -/
def HgHttpConnection.startCommandRequest (follow : FollowConfig) (conn : HgHttpConnection)
    (command : Bytes) (args : List (Bytes × Bytes)) : Option (HttpRequest × HgHttpConnection) := do
  let headers ← argHeaders conn.httpheader args
  let r := conn.client.request follow (conn.commandUrl command args)
  pure (headers.foldl (fun req h => req.header h.1 h.2)
      (r.1.header (ascii "Accept") (ascii "application/mercurial-0.1")),
    { conn with client := r.2 })

/-- `handle_redirect` (lines 403-410): the connection moves to where the response was
redirected, without the query. -/
def HgHttpConnection.handleRedirect (conn : HgHttpConnection) (redirectedTo : Option Url) :
    HgHttpConnection :=
  match redirectedTo with
  | some url => { conn with url := url.clearQuery }
  | none => conn

/-- Whether `httpmediatype` lists `0.2tx` among its comma-separated items (lines 429-439). -/
def HgHttpConnection.accepts02tx (conn : HgHttpConnection) : Bool :=
  match (conn.getCapability (ascii "httpmediatype")).filter isUtf8 with
  | some mediaType => (mediaType.splitOn 44).contains (ascii "0.2tx")
  | none => false

/-- A command as the connection sends it: by `simple_command`, by `changegroup_command`, or
by `push_command` with its input. -/
inductive WireCommand where
  | simple (command : Bytes) (args : List (Bytes × Bytes))
  | changegroup (command : Bytes) (args : List (Bytes × Bytes))
  | push (input : Body) (command : Bytes) (args : List (Bytes × Bytes))

/-- The arguments of a command. -/
def WireCommand.args : WireCommand → List (Bytes × Bytes)
  | .simple _ args => args
  | .changegroup _ args => args
  | .push _ _ args => args

/-- The request a command sends, and the connection after (lines 415-418, 428-439,
479-481): `pushkey` posts an empty body, `changegroup_command` asks for the `0.2` framing
when the server offers it, `push_command` posts its input. -/
def WireCommand.request (follow : FollowConfig) (conn : HgHttpConnection) :
    WireCommand → Option (HttpRequest × HgHttpConnection)
  | .simple command args =>
      (conn.startCommandRequest follow command args).map fun r =>
        (if command = ascii "pushkey" then
            (r.1.header (ascii "Content-Type") (ascii "application/mercurial-0.1")).postData ⟨[], 0⟩
          else r.1, r.2)
  | .changegroup command args =>
      (conn.startCommandRequest follow command args).map fun r =>
        (if r.2.accepts02tx then
            r.1.header (ascii "X-HgProto-1") (ascii "0.1 0.2 comp=zstd,zlib,none,bzip2")
          else r.1, r.2)
  | .push input command args =>
      (conn.startCommandRequest follow command args).map fun r =>
        ((r.1.postData input).header (ascii "Content-Type") (ascii "application/mercurial-0.1"),
          r.2)

/-- The requests a connection sends for commands in order, each followed by
`handle_redirect` with where the server redirected its response, and the connection after. -/
def HgHttpConnection.session (follow : FollowConfig) :
    HgHttpConnection → List (WireCommand × Option Url) →
      Option (List HttpRequest × HgHttpConnection)
  | conn, [] => some ([], conn)
  | conn, (cmd, redirectedTo) :: rest => do
      let r ← cmd.request follow conn
      let s ← HgHttpConnection.session follow (r.2.handleRedirect redirectedTo) rest
      pure (r.1 :: s.1, s.2)

/-- A connection's life (lines 562-606, then its commands): `get_http_connection`'s
connection with no capabilities and a new client, its `capabilities` request,
`handle_redirect`, the capabilities the server sent, then the commands. -/
def connectionRequests (follow : FollowConfig) (url : Url) (probeRedirect : Option Url)
    (caps : List (Bytes × Bytes)) (cmds : List (WireCommand × Option Url)) :
    Option (List HttpRequest) := do
  let r ← (HgHttpConnection.mk [] url HttpClient.new).startCommandRequest follow
    (ascii "capabilities") []
  let s ← HgHttpConnection.session follow
    { r.2.handleRedirect probeRedirect with capabilities := caps } cmds
  pure (r.1 :: s.1)

/-! ## The request of a command -/

section Command

theorem zero_not_mem_headerName
    (num : Nat) :
    (0 : UInt8) ∉ headerName num := by
  intro h
  rcases List.mem_append.mp h with h | h
  · exact absurd h (by decide)
  · have := isDigit_of_mem_decimal num 0 h
    simp [isDigit] at this

/-- Headers named `X-HgArg-1`, `X-HgArg-2`, ... whose values make up a string with no NUL
have no NUL in their lines. -/
theorem zero_not_mem_argHeaderLines
    {hdrs : List (Bytes × Bytes)} {x : Bytes}
    (hnames : hdrs.map Prod.fst = (List.range' 1 hdrs.length).map headerName)
    (hflat : (hdrs.map Prod.snd).flatten = x)
    (hx : (0 : UInt8) ∉ x) :
    ∀ h ∈ hdrs, (0 : UInt8) ∉ headerLine h := by
  intro h hh h0
  simp only [headerLine, List.mem_append, List.mem_cons] at h0
  rcases h0 with h0 | h0 | h0 | h0
  · have hname : h.1 ∈ hdrs.map Prod.fst := List.mem_map_of_mem Prod.fst hh
    rw [hnames] at hname
    obtain ⟨num, -, hnum⟩ := List.mem_map.mp hname
    exact zero_not_mem_headerName num (hnum ▸ h0)
  · exact absurd h0 (by decide)
  · exact absurd h0 (by decide)
  · exact hx (hflat ▸ List.mem_flatten.mpr ⟨h.2, List.mem_map_of_mem Prod.snd hh, h0⟩)

theorem HgHttpConnection.httpheader_lt
    (conn : HgHttpConnection) :
    conn.httpheader < 2 ^ 64 := by
  unfold HgHttpConnection.httpheader
  cases ((conn.getCapability (ascii "httpheader")).filter isUtf8).bind usizeFromBytes with
  | none => simp
  | some v => exact v.isLt

theorem Url.appendPairs_base
    (u : Url) (args : List (Bytes × Bytes)) :
    (u.appendPairs args).base = u.base := by
  induction args generalizing u with
  | nil => rfl
  | cons p args ih => exact ih (u.appendPair p.1 p.2)

theorem HgHttpConnection.commandUrl_base
    (conn : HgHttpConnection) (command : Bytes) (args : List (Bytes × Bytes)) :
    (conn.commandUrl command args).base = conn.url.base := by
  unfold HgHttpConnection.commandUrl
  split
  · rfl
  · rw [Url.appendPairs_base]
    rfl

theorem HgHttpConnection.commandUrl_query
    (conn : HgHttpConnection) (command : Bytes) (args : List (Bytes × Bytes)) :
    (conn.commandUrl command args).query = some (conn.url.query.getD [] ++
      (if conn.url.query.getD [] = [] then [] else [38]) ++
      formUrlencoded ((ascii "cmd", command) ::
        if 0 < conn.httpheader ∧ args ≠ [] then [] else args)) := by
  unfold HgHttpConnection.commandUrl
  split
  · exact Url.commandQuery conn.url command []
  · exact Url.commandQuery conn.url command args

/-- The request of a command, once its `X-HgArg-N` headers are known. -/
theorem HgHttpConnection.startCommandRequest_eq_some
    {follow : FollowConfig} {conn : HgHttpConnection} {command : Bytes}
    {args hs : List (Bytes × Bytes)}
    (hrun : argHeaders conn.httpheader args = some hs) :
    conn.startCommandRequest follow command args = some
      ({ (conn.client.request follow (conn.commandUrl command args)).1 with
          headers := (ascii "Accept", ascii "application/mercurial-0.1") :: hs },
        { conn with client := ⟨false⟩ }) := by
  obtain ⟨-, -, hheaders, -, hclient⟩ :=
    request_followRedirects follow conn.client (conn.commandUrl command args)
  simp [HgHttpConnection.startCommandRequest, hrun, hclient, hheaders]

/-- The header lines of a command's request hold no NUL. -/
theorem startCommandRequest_nul
    (follow : FollowConfig) (conn : HgHttpConnection) (command : Bytes)
    (args : List (Bytes × Bytes))
    (hlen : (formUrlencoded args).length < 2 ^ 63) :
    ∃ req, conn.startCommandRequest follow command args =
        some (req, { conn with client := ⟨false⟩ }) ∧
      req.followRedirects = decide ((follow = .followInitial ∧ conn.client.initialRequest = true) ∨
        follow = .followAlways) ∧
      ∀ h ∈ req.headers, (0 : UInt8) ∉ headerLine h := by
  obtain ⟨hs, hrun, hnames, hflat, -⟩ := argHeaders_total conn.httpheader_lt hlen
  obtain ⟨hfollow, -⟩ := request_followRedirects follow conn.client (conn.commandUrl command args)
  refine ⟨_, HgHttpConnection.startCommandRequest_eq_some hrun, hfollow,
    List.forall_mem_cons.mpr ⟨by decide, zero_not_mem_argHeaderLines hnames hflat ?_⟩⟩
  split
  · exact zero_not_mem_formUrlencoded args
  · simp

/-- A command's request follows redirects as its client says, and holds no NUL in a header
line. -/
theorem WireCommand.request_spec
    (follow : FollowConfig) (conn : HgHttpConnection) (cmd : WireCommand)
    (hlen : (formUrlencoded cmd.args).length < 2 ^ 63) :
    ∃ req, cmd.request follow conn = some (req, { conn with client := ⟨false⟩ }) ∧
      req.followRedirects = decide ((follow = .followInitial ∧ conn.client.initialRequest = true) ∨
        follow = .followAlways) ∧
      ∀ h ∈ req.headers, (0 : UInt8) ∉ headerLine h := by
  have hct :
      (0 : UInt8) ∉ headerLine (ascii "Content-Type", ascii "application/mercurial-0.1") := by
    decide
  cases cmd with
  | simple command args =>
      obtain ⟨req, hrun, hfollow, hnul⟩ := startCommandRequest_nul follow conn command args hlen
      refine ⟨_, by simp [WireCommand.request, hrun]; rfl, ?_, ?_⟩ <;> split
      · simpa using hfollow
      · exact hfollow
      · simp only [HttpRequest.postData_headers, HttpRequest.header_headers, List.mem_append,
          List.mem_singleton]
        rintro h (hh | rfl)
        · exact hnul h hh
        · exact hct
      · exact hnul
  | changegroup command args =>
      obtain ⟨req, hrun, hfollow, hnul⟩ := startCommandRequest_nul follow conn command args hlen
      refine ⟨_, by simp [WireCommand.request, hrun]; rfl, ?_, ?_⟩ <;> split
      · simpa using hfollow
      · exact hfollow
      · simp only [HttpRequest.header_headers, List.mem_append, List.mem_singleton]
        rintro h (hh | rfl)
        · exact hnul h hh
        · decide
      · exact hnul
  | push input command args =>
      obtain ⟨req, hrun, hfollow, hnul⟩ := startCommandRequest_nul follow conn command args hlen
      refine ⟨_, by simp [WireCommand.request, hrun]; rfl, by simpa using hfollow, ?_⟩
      simp only [HttpRequest.header_headers, HttpRequest.postData_headers, List.mem_append,
        List.mem_singleton]
      rintro h (hh | rfl)
      · exact hnul h hh
      · exact hct

end Command

/-! ## A connection's life -/

section Session

variable (follow : FollowConfig)

@[simp] theorem HgHttpConnection.handleRedirect_client
    (conn : HgHttpConnection) (redirectedTo : Option Url) :
    (conn.handleRedirect redirectedTo).client = conn.client := by
  cases redirectedTo <;> rfl

/-- Once the client has made its first request, every command of a session sends one
request, which follows redirects under `true` only and holds no NUL in a header line. -/
theorem HgHttpConnection.session_spec :
    ∀ (cmds : List (WireCommand × Option Url)) (conn : HgHttpConnection),
      conn.client = ⟨false⟩ → (∀ c ∈ cmds, (formUrlencoded c.1.args).length < 2 ^ 63) →
      ∃ reqs conn', conn.session follow cmds = some (reqs, conn') ∧
        reqs.map HttpRequest.followRedirects =
          cmds.map (fun _ => decide (follow = .followAlways)) ∧
        ∀ r ∈ reqs, ∀ h ∈ r.headers, (0 : UInt8) ∉ headerLine h
  | [], conn, _, _ => ⟨[], conn, rfl, rfl, by simp⟩
  | (cmd, redirectedTo) :: rest, conn, hclient, hargs => by
      obtain ⟨req, hreq, hfollow, hnul⟩ :=
        WireCommand.request_spec follow conn cmd (hargs _ (List.mem_cons_self _ _))
      obtain ⟨reqs, conn', hrun, hfollows, hnuls⟩ :=
        HgHttpConnection.session_spec rest
          ({ conn with client := ⟨false⟩ }.handleRedirect redirectedTo) (by simp)
          fun c hc => hargs c (List.mem_cons_of_mem _ hc)
      refine ⟨req :: reqs, conn', by simp [HgHttpConnection.session, hreq, hrun], ?_, ?_⟩
      · simp [hfollow, hfollows, hclient]
      · exact List.forall_mem_cons.mpr ⟨hnul, hnuls⟩

/-- A connection's `capabilities` request follows redirects under `initial` and `true`, and
every command after it under `true` only; no request holds a NUL in a header line. -/
theorem connectionRequests_spec
    (url : Url) (probeRedirect : Option Url) (caps : List (Bytes × Bytes))
    (cmds : List (WireCommand × Option Url))
    (hargs : ∀ c ∈ cmds, (formUrlencoded c.1.args).length < 2 ^ 63) :
    ∃ reqs, connectionRequests follow url probeRedirect caps cmds = some reqs ∧
      reqs.map HttpRequest.followRedirects =
        decide (follow = .followInitial ∨ follow = .followAlways) ::
          cmds.map (fun _ => decide (follow = .followAlways)) ∧
      ∀ r ∈ reqs, ∀ h ∈ r.headers, (0 : UInt8) ∉ headerLine h := by
  obtain ⟨probe, hprobe, hfollow, hnul⟩ :=
    startCommandRequest_nul follow ⟨[], url, HttpClient.new⟩ (ascii "capabilities") [] (by decide)
  obtain ⟨reqs, conn', hrun, hfollows, hnuls⟩ :=
    HgHttpConnection.session_spec follow cmds
      ⟨caps, ((HgHttpConnection.mk [] url ⟨false⟩).handleRedirect probeRedirect).url, ⟨false⟩⟩
      rfl hargs
  refine ⟨probe :: reqs, by simp [connectionRequests, hprobe, hrun], ?_,
    List.forall_mem_cons.mpr ⟨hnul, hnuls⟩⟩
  simp [hfollow, hfollows, HttpClient.new]

end Session

/-- Over a connection's life, the `capabilities` request follows redirects under
`http.followRedirects=initial` and `true`, and every command after it under `true` only. -/
theorem connection_followRedirects
    (follow : FollowConfig) (url : Url) (probeRedirect : Option Url)
    (caps : List (Bytes × Bytes)) (cmds : List (WireCommand × Option Url))
    (hargs : ∀ c ∈ cmds, (formUrlencoded c.1.args).length < 2 ^ 63) :
    ∃ reqs, connectionRequests follow url probeRedirect caps cmds = some reqs ∧
      reqs.map HttpRequest.followRedirects =
        decide (follow = .followInitial ∨ follow = .followAlways) ::
          cmds.map (fun _ => decide (follow = .followAlways)) := by
  obtain ⟨reqs, hrun, hfollow, -⟩ :=
    connectionRequests_spec follow url probeRedirect caps cmds hargs
  exact ⟨reqs, hrun, hfollow⟩

/-- Under `initial`, the `capabilities` request follows a redirect; a `heads` and an
`unbundle` after it do not. -/
theorem connection_followRedirects_initial :
    ∃ reqs, connectionRequests .followInitial ⟨ascii "r", none, by decide, nofun⟩ none
        [(ascii "httpheader", ascii "1024")]
        [(.simple (ascii "heads") [], none),
          (.push ⟨ascii "HG20", 4⟩ (ascii "unbundle") [(ascii "heads", ascii "666f6f")], none)] =
        some reqs ∧
      reqs.map HttpRequest.followRedirects = [true, false, false] := by
  obtain ⟨reqs, hrun, hfollow⟩ := connection_followRedirects .followInitial
    ⟨ascii "r", none, by decide, nofun⟩ none [(ascii "httpheader", ascii "1024")]
    [(.simple (ascii "heads") [], none),
      (.push ⟨ascii "HG20", 4⟩ (ascii "unbundle") [(ascii "heads", ascii "666f6f")], none)]
    (by decide)
  exact ⟨reqs, hrun, hfollow.trans rfl⟩

/-- Every request of a connection's life is handed to curl: its URL and header lines hold no
NUL, so `CString::new(..).unwrap()` of `execute_once` never panics. -/
theorem connection_curlSetup
    (follow : FollowConfig) (url : Url) (probeRedirect : Option Url)
    (caps : List (Bytes × Bytes)) (cmds : List (WireCommand × Option Url))
    (hargs : ∀ c ∈ cmds, (formUrlencoded c.1.args).length < 2 ^ 63) :
    ∃ reqs, connectionRequests follow url probeRedirect caps cmds = some reqs ∧
      reqs.length = cmds.length + 1 ∧
      ∀ r ∈ reqs, curlSetup r = some (curlOptions r) := by
  obtain ⟨reqs, hrun, hfollow, hnul⟩ :=
    connectionRequests_spec follow url probeRedirect caps cmds hargs
  refine ⟨reqs, hrun, by simpa using congrArg List.length hfollow, fun r hr => ?_⟩
  exact curlSetup_eq_some (hnul r hr)

/-- The three requests of a connection with a `heads` and an `unbundle` are all handed to
curl. -/
theorem connection_curlSetup_push :
    ∃ reqs, connectionRequests .followInitial ⟨ascii "r", none, by decide, nofun⟩ none
        [(ascii "httpheader", ascii "1024")]
        [(.simple (ascii "heads") [], none),
          (.push ⟨ascii "HG20", 4⟩ (ascii "unbundle") [(ascii "heads", ascii "666f6f")], none)] =
        some reqs ∧
      reqs.length = 3 ∧ ∀ r ∈ reqs, curlSetup r = some (curlOptions r) :=
  connection_curlSetup .followInitial ⟨ascii "r", none, by decide, nofun⟩ none
    [(ascii "httpheader", ascii "1024")]
    [(.simple (ascii "heads") [], none),
      (.push ⟨ascii "HG20", 4⟩ (ascii "unbundle") [(ascii "heads", ascii "666f6f")], none)]
    (by decide)

end Http

end GitCinnabar
