import GitCinnabar.Bytes

/-!
# git-cinnabar: the HTTP response channel

`HttpRequest::execute_once` (`hg_connect_http.rs`) runs a curl transfer on a worker thread
that passes what it gets over an `mpsc` channel.  Curl's write callback,
`http_request_execute`, first calls `http_send_info`, which sends the response info the
first time only, then sends the chunk; once `run_one_slot` returns, the worker calls
`http_send_info` again, so that the info is sent even without a chunk, and returns,
dropping the sender.  The caller receives the first message: an info with a status below
300 makes an `HttpResponse`; anything else drains the channel, joins the worker and returns
its error.  `HttpResponse::read` serves its buffer from a cursor over the last chunk, and
receives the next chunk whenever the cursor gives nothing; a closed channel reads as `0`.

**Model.**  The system is the worker, the channel and the reader; a run is any interleaving
of their steps.  The channel is the queue of messages sent and not yet received, and a
receive on an empty queue blocks while the worker runs.  The transfer curl performs is a
parameter: the response code `http_send_info` reads, the chunks curl hands the callback and
the result of `run_one_slot`.  The reader records what its reads returned, and whether a
read with a non-empty buffer returned `0`, which its callers take for the end of the body.

**Results.**
* `Inv.step`: the invariant of the channel, kept by every step: the info is sent first and
  once, and is the first message the reader receives.
* `reachable_ne_unreachable`: when `run_one_slot` fails for every status of 300 or more, no
  run reaches an `unreachable!()`.
* `run_conserves`: in a run whose reads all have a non-empty buffer, over chunks that are
  not empty, the reads return a prefix of the body, and all of it once one returns `0`.
* `run_result`: after a status below 300 every run goes as for any other result of
  `run_one_slot`; no read reports a failure.
* `run_read_empty_buffer`, `run_failure_after_info`: a read with an empty buffer loses the
  rest of the cursor, and a failure after a status below 300 reads as the end of the body.
-/

namespace GitCinnabar

namespace Http

/-- `HttpResponseInfo`, of which the modelled code reads the status. -/
structure HttpResponseInfo where
  httpStatus : Nat
deriving DecidableEq

/-- `HttpRequestChannelData`: `Either<HttpResponseInfo, Vec<u8>>`. -/
abbrev ChannelData := HttpResponseInfo ⊕ Bytes

/-- `HTTP_OK` of git's `http.h`. -/
def httpOk : Int := 0

/-- What curl does in `run_one_slot`: the response code `http_send_info` reads, the chunks it
hands the write callback, in order, and the result `run_one_slot` returns. -/
structure Transfer where
  httpStatus : Nat
  chunks : List Bytes
  result : Int

/-- The worker thread: `HttpThreadData.first`, the chunks curl has still to hand over, and
whether the thread has returned. -/
structure Worker where
  first : Bool
  pending : List Bytes
  finished : Bool

/-- The caller of `execute_once`, then the `HttpResponse` it returns. -/
inductive Reader where
  /-- `execute_once` before its first `recv`. -/
  | waiting
  /-- `execute_once` on its error path, receiving until the channel closes. -/
  | draining
  /-- `execute_once` returned `Err((result, self))`. -/
  | failed (result : Int)
  /-- An `HttpResponse`, with the unread bytes of its cursor. -/
  | reading (cursor : Bytes)
  /-- An `unreachable!()` was reached. -/
  | unreachable
deriving DecidableEq

/-- The whole system. -/
structure HttpState where
  worker : Worker
  queue : List ChannelData
  reader : Reader
  /-- What the reads returned, in order. -/
  out : Bytes
  /-- A read with a non-empty buffer has returned `0`. -/
  eof : Bool

/-- The steps of a run. -/
inductive Event where
  /-- Curl calls `http_request_execute` with its next chunk. -/
  | write
  /-- `run_one_slot` returns; `http_send_info`; the thread returns. -/
  | finish
  /-- `execute_once` receives its first message. -/
  | recvInfo
  /-- The error path of `execute_once` receives one message, or sees the channel closed and
  joins the worker. -/
  | drain
  /-- `HttpResponse::read` with a buffer of `n` bytes. -/
  | read (n : Nat)
deriving DecidableEq

variable (t : Transfer)

/-- The info message of the transfer. -/
def infoMsg : ChannelData := .inl ⟨t.httpStatus⟩

/-- The state before anything runs. -/
def init : HttpState := ⟨⟨true, t.chunks, false⟩, [], .waiting, [], false⟩

/-- `http_send_info`: the info goes on the channel the first time only. -/
def sendInfo (s : HttpState) : HttpState :=
  if s.worker.first then
    { s with worker := { s.worker with first := false }, queue := s.queue ++ [infoMsg t] }
  else s

section SendInfo

variable {t} (s : HttpState)

@[simp] theorem sendInfo_reader : (sendInfo t s).reader = s.reader := by
  unfold sendInfo; split <;> rfl

@[simp] theorem sendInfo_out : (sendInfo t s).out = s.out := by
  unfold sendInfo; split <;> rfl

@[simp] theorem sendInfo_eof : (sendInfo t s).eof = s.eof := by
  unfold sendInfo; split <;> rfl

@[simp] theorem sendInfo_pending : (sendInfo t s).worker.pending = s.worker.pending := by
  unfold sendInfo; split <;> rfl

@[simp] theorem sendInfo_finished : (sendInfo t s).worker.finished = s.worker.finished := by
  unfold sendInfo; split <;> rfl

@[simp] theorem sendInfo_first : (sendInfo t s).worker.first = false := by
  unfold sendInfo; split <;> simp_all

theorem sendInfo_queue :
    (sendInfo t s).queue = s.queue ++ if s.worker.first then [infoMsg t] else [] := by
  unfold sendInfo; split <;> simp_all

@[simp] theorem inr_mem_sendInfo_queue
    (d : Bytes) :
    Sum.inr d ∈ (sendInfo t s).queue ↔ Sum.inr d ∈ s.queue := by
  rw [sendInfo_queue]
  split <;> simp [infoMsg]

end SendInfo

/-- `http_request_execute` for the next chunk. -/
def write (s : HttpState) : Option HttpState :=
  match s.worker.pending, s.worker.finished with
  | c :: rest, false =>
      let s := sendInfo t s
      some { s with worker := { s.worker with pending := rest }, queue := s.queue ++ [.inr c] }
  | _, _ => none

/-- The end of the worker thread, once curl has handed over every chunk. -/
def finish (s : HttpState) : Option HttpState :=
  if s.worker.pending = [] ∧ s.worker.finished = false then
    let s := sendInfo t s
    some { s with worker := { s.worker with finished := true } }
  else none

/-- The first `recv` of `execute_once`. -/
def recvInfo (s : HttpState) : Option HttpState :=
  match s.reader, s.queue with
  | .waiting, .inl info :: q =>
      some { s with queue := q, reader := if info.httpStatus < 300 then .reading [] else .draining }
  | .waiting, .inr _ :: q => some { s with queue := q, reader := .unreachable }
  | .waiting, [] => if s.worker.finished then some { s with reader := .draining } else none
  | _, _ => none

/-- `while receiver.recv().is_ok() {}`, then `thread.join().unwrap()?; unreachable!()`. -/
def drain (s : HttpState) : Option HttpState :=
  match s.reader, s.queue with
  | .draining, _ :: q => some { s with queue := q }
  | .draining, [] =>
      if s.worker.finished then
        some { s with reader := if t.result = httpOk then .unreachable else .failed t.result }
      else none
  | _, _ => none

/-- `HttpResponse::read` with a buffer of `n` bytes. -/
def read (n : Nat) (s : HttpState) : Option HttpState :=
  match s.reader with
  | .reading cursor =>
      if n ≠ 0 ∧ cursor ≠ [] then
        some { s with reader := .reading (cursor.drop n), out := s.out ++ cursor.take n }
      else
        match s.queue with
        | .inr data :: q =>
            some { s with queue := q, reader := .reading (data.drop n), out := s.out ++ data.take n,
                          eof := s.eof || (n ≠ 0 && data.take n = []) }
        | .inl _ :: q => some { s with queue := q, reader := .unreachable }
        | [] => if s.worker.finished then some { s with eof := s.eof || n ≠ 0 } else none
  | _ => none

/-- One step of a run; `none` when the step cannot happen now. -/
def step (s : HttpState) : Event → Option HttpState
  | .write => write t s
  | .finish => finish t s
  | .recvInfo => recvInfo s
  | .drain => drain t s
  | .read n => read n s

/-- A run: the steps in order, from `s`. -/
def run : List Event → HttpState → Option HttpState
  | [], s => some s
  | e :: es, s => (step t s e).bind (run es)

/-! ## What each step does -/

section Steps

variable {t} {s s' : HttpState}

theorem write_eq_some
    (h : write t s = some s') :
    ∃ c rest, s.worker.pending = c :: rest ∧ s.worker.finished = false ∧
      s' = ⟨⟨false, rest, false⟩, (sendInfo t s).queue ++ [.inr c], s.reader, s.out, s.eof⟩ := by
  unfold write at h
  split at h
  · next c rest hp hf =>
      cases h
      refine ⟨c, rest, hp, hf, ?_⟩
      unfold sendInfo
      split <;> simp_all
  · cases h

theorem finish_eq_some
    (h : finish t s = some s') :
    s.worker.pending = [] ∧ s.worker.finished = false ∧
      s' = ⟨⟨false, [], true⟩, (sendInfo t s).queue, s.reader, s.out, s.eof⟩ := by
  unfold finish at h
  split at h
  · next hf =>
      cases h
      refine ⟨hf.1, hf.2, ?_⟩
      unfold sendInfo
      split <;> simp_all
  · cases h

theorem recvInfo_eq_some
    (h : recvInfo s = some s') :
    s.reader = .waiting ∧
      ((∃ info q, s.queue = .inl info :: q ∧
          s' = { s with queue := q, reader := if info.httpStatus < 300 then .reading [] else .draining }) ∨
        (∃ d q, s.queue = .inr d :: q ∧ s' = { s with queue := q, reader := .unreachable }) ∨
        (s.queue = [] ∧ s.worker.finished = true ∧ s' = { s with reader := .draining })) := by
  unfold recvInfo at h
  split at h
  · next info q hr hq => exact ⟨hr, .inl ⟨info, q, hq, (Option.some.inj h).symm⟩⟩
  · next d q hr hq => exact ⟨hr, .inr (.inl ⟨d, q, hq, (Option.some.inj h).symm⟩)⟩
  · next hr hq =>
      split at h
      · next hf => exact ⟨hr, .inr (.inr ⟨hq, hf, (Option.some.inj h).symm⟩)⟩
      · cases h
  · cases h

theorem drain_eq_some
    (h : drain t s = some s') :
    s.reader = .draining ∧
      ((∃ m q, s.queue = m :: q ∧ s' = { s with queue := q }) ∨
        (s.queue = [] ∧ s.worker.finished = true ∧
          s' = { s with reader := if t.result = httpOk then .unreachable else .failed t.result })) := by
  unfold drain at h
  split at h
  · next m q hr hq => exact ⟨hr, .inl ⟨m, q, hq, (Option.some.inj h).symm⟩⟩
  · next hr hq =>
      split at h
      · next hf => exact ⟨hr, .inr ⟨hq, hf, (Option.some.inj h).symm⟩⟩
      · cases h
  · cases h

theorem read_eq_some
    {n : Nat}
    (h : read n s = some s') :
    ∃ cursor, s.reader = .reading cursor ∧
      ((n ≠ 0 ∧ cursor ≠ [] ∧
          s' = { s with reader := .reading (cursor.drop n), out := s.out ++ cursor.take n }) ∨
        ((n = 0 ∨ cursor = []) ∧
          ((∃ data q, s.queue = .inr data :: q ∧
              s' = { s with queue := q, reader := .reading (data.drop n), out := s.out ++ data.take n,
                            eof := s.eof || (n ≠ 0 && data.take n = []) }) ∨
            (∃ info q, s.queue = .inl info :: q ∧ s' = { s with queue := q, reader := .unreachable }) ∨
            (s.queue = [] ∧ s.worker.finished = true ∧ s' = { s with eof := s.eof || n ≠ 0 })))) := by
  unfold read at h
  split at h
  · next cursor hr =>
      refine ⟨cursor, hr, ?_⟩
      split at h
      · next hc => exact .inl ⟨hc.1, hc.2, (Option.some.inj h).symm⟩
      · next hc =>
          refine .inr ⟨by tauto, ?_⟩
          split at h
          · next data q hq => exact .inl ⟨data, q, hq, (Option.some.inj h).symm⟩
          · next info q hq => exact .inr (.inl ⟨info, q, hq, (Option.some.inj h).symm⟩)
          · next hq =>
              split at h
              · next hf => exact .inr (.inr ⟨hq, hf, (Option.some.inj h).symm⟩)
              · cases h
  · cases h

end Steps

/-! ## The invariant of the channel -/

/-- What the reader knows of the channel: before the info is sent nothing is; the info
heads the queue, followed by chunks only, until the reader has received it; the error path
and an `unreachable!()` are reached only as their conditions say. -/
structure Inv (s : HttpState) : Prop where
  fresh : s.worker.first = true → s.queue = [] ∧ s.worker.finished = false ∧ s.reader = .waiting
  head : s.reader = .waiting → s.worker.first = false →
    ∃ q, s.queue = infoMsg t :: q ∧ ∀ m ∈ q, m.isRight
  tail : s.reader ≠ .waiting → ∀ m ∈ s.queue, m.isRight
  draining : s.reader = .draining → 300 ≤ t.httpStatus
  unreachable : s.reader = .unreachable → t.result = httpOk ∧ 300 ≤ t.httpStatus

theorem init_inv :
    Inv t (init t) where
  fresh _ := ⟨rfl, rfl, rfl⟩
  head _ h := absurd h (by simp [Http.init])
  tail h := absurd rfl h
  draining h := by cases h
  unreachable h := by cases h

section Inv

variable {t} {s s' : HttpState}

/-- Once a message is queued, the worker has returned or the reader has received, the
info has been sent. -/
theorem Inv.first_eq_false
    (hs : Inv t s)
    (h : ¬(s.queue = [] ∧ s.worker.finished = false ∧ s.reader = .waiting)) :
    s.worker.first = false :=
  Bool.eq_false_iff.mpr fun hf => h (hs.fresh hf)

/-- A reader serving the body, over a channel of chunks, after the info was sent. -/
theorem inv_of_reading
    {cursor : Bytes}
    (hfirst : s.worker.first = false)
    (hr : s.reader = .reading cursor)
    (hq : ∀ m ∈ s.queue, m.isRight) :
    Inv t s :=
  ⟨fun h => absurd h (by simp [hfirst]), fun h => by simp [hr] at h, fun _ => hq,
    fun h => by simp [hr] at h, fun h => by simp [hr] at h⟩

theorem write_inv
    (hs : Inv t s)
    (h : write t s = some s') :
    Inv t s' := by
  obtain ⟨c, rest, -, -, rfl⟩ := write_eq_some h
  rw [sendInfo_queue]
  cases hfirst : s.worker.first
  · simp only [Bool.false_eq_true, if_false, List.append_nil]
    refine ⟨nofun, fun hr _ => ?_, fun hr m hm => ?_, hs.draining, hs.unreachable⟩
    · obtain ⟨q, hq, hright⟩ := hs.head hr hfirst
      exact ⟨q ++ [.inr c], by simp [hq], by simpa [or_imp, forall_and] using hright⟩
    · rcases List.mem_append.mp hm with hm | hm
      · exact hs.tail hr m hm
      · rw [List.mem_singleton.mp hm]
        rfl
  · obtain ⟨hq, -, hr⟩ := hs.fresh hfirst
    simp only [if_true, hq, List.nil_append]
    exact ⟨nofun, fun _ _ => ⟨[.inr c], rfl, by simp⟩, fun h => absurd hr h,
      fun h => by simp [hr] at h, fun h => by simp [hr] at h⟩

theorem finish_inv
    (hs : Inv t s)
    (h : finish t s = some s') :
    Inv t s' := by
  obtain ⟨-, -, rfl⟩ := finish_eq_some h
  rw [sendInfo_queue]
  cases hfirst : s.worker.first
  · simpa using ⟨nofun, fun hr _ => hs.head hr hfirst, hs.tail, hs.draining,
      hs.unreachable⟩
  · obtain ⟨hq, -, hr⟩ := hs.fresh hfirst
    simp only [if_true, hq, List.nil_append]
    exact ⟨nofun, fun _ _ => ⟨[], rfl, by simp⟩, fun h => absurd hr h,
      fun h => by simp [hr] at h, fun h => by simp [hr] at h⟩

theorem recvInfo_inv
    (hs : Inv t s)
    (h : recvInfo s = some s') :
    Inv t s' := by
  obtain ⟨hr, ⟨info, q, hq, rfl⟩ | ⟨d, q, hq, rfl⟩ | ⟨hq, hf, rfl⟩⟩ := recvInfo_eq_some h
  · have hfirst := hs.first_eq_false (by simp [hq])
    obtain ⟨q', hq', hright⟩ := hs.head hr hfirst
    rw [hq] at hq'
    simp only [infoMsg, List.cons.injEq, Sum.inl.injEq] at hq'
    obtain ⟨rfl, rfl⟩ := hq'
    split
    · exact inv_of_reading hfirst rfl hright
    · next hlt =>
        exact ⟨fun h => absurd h (by simp [hfirst]), nofun, fun _ => hright,
          fun _ => Nat.le_of_not_lt hlt, nofun⟩
  · obtain ⟨q', hq', -⟩ := hs.head hr (hs.first_eq_false (by simp [hq]))
    simp [hq, infoMsg] at hq'
  · obtain ⟨q', hq', -⟩ := hs.head hr (hs.first_eq_false (by simp [hf]))
    simp [hq] at hq'

theorem drain_inv
    (hs : Inv t s)
    (h : drain t s = some s') :
    Inv t s' := by
  obtain ⟨hr, h⟩ := drain_eq_some h
  have hfirst := hs.first_eq_false (by simp [hr])
  rcases h with ⟨m, q, hq, rfl⟩ | ⟨hq, -, rfl⟩
  · exact ⟨fun h => absurd h (by simp [hfirst]), fun h => by simp [hr] at h,
      fun _ m' hm => hs.tail (by simp [hr]) m' (by simp [hq, hm]), fun _ => hs.draining hr,
      fun h => by simp [hr] at h⟩
  · refine ⟨fun h => absurd h (by simp [hfirst]), fun h => ?_, fun _ m hm => by simp [hq] at hm,
      fun h => ?_, fun h => ?_⟩ <;> split at h
    all_goals first | exact ⟨‹_›, hs.draining hr⟩ | cases h

theorem read_inv
    {n : Nat}
    (hs : Inv t s)
    (h : read n s = some s') :
    Inv t s' := by
  obtain ⟨cursor, hr, h⟩ := read_eq_some h
  have hfirst := hs.first_eq_false (by simp [hr])
  have htail := hs.tail (by simp [hr])
  rcases h with ⟨-, -, rfl⟩ | ⟨-, ⟨data, q, hq, rfl⟩ | ⟨info, q, hq, rfl⟩ | ⟨-, -, rfl⟩⟩
  · exact inv_of_reading hfirst rfl htail
  · exact inv_of_reading hfirst rfl fun m hm => htail m (by simp [hq, hm])
  · simpa using htail (.inl info) (by simp [hq])
  · exact inv_of_reading hfirst hr htail

/-- Every step keeps the invariant. -/
theorem Inv.step
    {e : Event}
    (hs : Inv t s)
    (h : step t s e = some s') :
    Inv t s' := by
  cases e with
  | write => exact write_inv hs h
  | finish => exact finish_inv hs h
  | recvInfo => exact recvInfo_inv hs h
  | drain => exact drain_inv hs h
  | read n => exact read_inv hs h

end Inv

/-- Every run keeps the invariant. -/
theorem Inv.run
    {t : Transfer} {s : HttpState}
    (hs : Inv t s) :
    ∀ {es : List Event} {s' : HttpState}, Http.run t es s = some s' → Inv t s'
  | [], _, h => by
      cases h
      exact hs
  | e :: es, s', h => by
      obtain ⟨s₁, h₁, h⟩ := Option.bind_eq_some.mp h
      exact (hs.step h₁).run h

/-- When `run_one_slot` fails for every status of 300 or more, as git's
`handle_curl_result` makes it, no interleaving reaches an `unreachable!()`: the first
message `execute_once` receives is the info, and no other message is one. -/
theorem reachable_ne_unreachable
    {t : Transfer}
    (hok : t.result = httpOk → t.httpStatus < 300)
    {es : List Event} {s : HttpState}
    (h : Http.run t es (init t) = some s) :
    s.reader ≠ .unreachable := fun hu => by
  have := ((init_inv t).run h).unreachable hu
  have := hok this.1
  omega

/-- A 404 whose transfer fails: the error path drains the chunk and returns the failure. -/
theorem reachable_ne_unreachable_404 :
    Http.run ⟨404, [ascii "x"], 2⟩ [.write, .finish, .recvInfo, .drain, .drain]
        (init ⟨404, [ascii "x"], 2⟩) =
      some ⟨⟨false, [], true⟩, [], .failed 2, [], false⟩ ∧
    Reader.failed 2 ≠ .unreachable :=
  ⟨rfl, @reachable_ne_unreachable ⟨404, [ascii "x"], 2⟩ (by decide)
    [.write, .finish, .recvInfo, .drain, .drain] ⟨⟨false, [], true⟩, [], .failed 2, [], false⟩ rfl⟩

/-! ## The bytes of the body -/

/-- The bytes of the chunks on the channel. -/
def queuedData (q : List ChannelData) : Bytes := (q.filterMap Sum.getRight?).flatten

@[simp] theorem queuedData_nil :
    queuedData [] = [] :=
  rfl

@[simp] theorem queuedData_cons_inl
    (info : HttpResponseInfo) (q : List ChannelData) :
    queuedData (.inl info :: q) = queuedData q :=
  rfl

@[simp] theorem queuedData_cons_inr
    (d : Bytes) (q : List ChannelData) :
    queuedData (.inr d :: q) = d ++ queuedData q :=
  rfl

@[simp] theorem queuedData_append
    (q r : List ChannelData) :
    queuedData (q ++ r) = queuedData q ++ queuedData r := by
  simp [queuedData, List.filterMap_append]

@[simp] theorem queuedData_sendInfo
    (s : HttpState) :
    queuedData (sendInfo t s).queue = queuedData s.queue := by
  rw [sendInfo_queue]
  split <;> simp [infoMsg]

/-- The unread bytes of the reader's cursor; none before it reads. -/
def Reader.cursor : Reader → Bytes
  | .reading c => c
  | _ => []

/-- The reader before or while it serves the body. -/
def Reader.serving : Reader → Bool
  | .waiting | .reading _ => true
  | _ => false

/-- Every byte of the body is in one place: returned by a read, in the cursor, on the
channel or still with curl; and a read with a non-empty buffer returns `0` only once all of
it has been returned. -/
structure Conserves (s : HttpState) : Prop where
  bytes : s.reader.serving = true →
    s.out ++ s.reader.cursor ++ queuedData s.queue ++ s.worker.pending.flatten = t.chunks.flatten
  idle : s.reader = .waiting ∨ s.reader.serving = false → s.out = [] ∧ s.eof = false
  done : s.worker.finished = true → s.worker.pending = []
  pending_ne_nil : ∀ c ∈ s.worker.pending, c ≠ []
  queue_ne_nil : ∀ d, .inr d ∈ s.queue → d ≠ []
  eof : s.eof = true → s.out = t.chunks.flatten

theorem init_conserves
    (hchunks : ∀ c ∈ t.chunks, c ≠ []) :
    Conserves t (init t) where
  bytes _ := by simp [Http.init, Reader.cursor]
  idle _ := ⟨rfl, rfl⟩
  done h := nomatch h
  pending_ne_nil := hchunks
  queue_ne_nil _ h := nomatch h
  eof h := nomatch h

section Conserves

variable {t} {s s' : HttpState}

/-- Once a read has returned `0`, nothing of the body is left. -/
theorem Conserves.rest_eq_nil
    (hc : Conserves t s)
    (hr : s.reader.serving = true)
    (he : s.eof = true) :
    s.reader.cursor = [] ∧ queuedData s.queue = [] ∧ s.worker.pending = [] := by
  have h := hc.bytes hr
  rw [hc.eof he, List.append_assoc, List.append_assoc, List.append_right_eq_self] at h
  simp only [List.append_eq_nil, List.flatten_eq_nil_iff] at h
  exact ⟨h.1, h.2.1, List.eq_nil_iff_forall_not_mem.mpr fun c hc' => hc.pending_ne_nil c hc' (h.2.2 c hc')⟩

theorem write_conserves
    (hc : Conserves t s)
    (h : write t s = some s') :
    Conserves t s' := by
  obtain ⟨c, rest, hp, -, rfl⟩ := write_eq_some h
  refine ⟨fun hr => ?_, hc.idle, nofun, fun c' hc' => hc.pending_ne_nil c' (by simp [hp, hc']),
    fun d hd => ?_, hc.eof⟩
  · rw [← hc.bytes hr, hp]
    simp
  · rcases List.mem_append.mp hd with hd | hd
    · exact hc.queue_ne_nil d (by simpa using hd)
    · exact hc.pending_ne_nil d (by simp_all)

theorem finish_conserves
    (hc : Conserves t s)
    (h : finish t s = some s') :
    Conserves t s' := by
  obtain ⟨hp, -, rfl⟩ := finish_eq_some h
  exact ⟨fun hr => by simpa [hp] using hc.bytes hr, hc.idle, fun _ => rfl, nofun,
    fun d hd => hc.queue_ne_nil d (by simpa using hd), hc.eof⟩

theorem recvInfo_conserves
    (hc : Conserves t s)
    (h : recvInfo s = some s') :
    Conserves t s' := by
  obtain ⟨hr, h⟩ := recvInfo_eq_some h
  obtain ⟨hout, heof⟩ := hc.idle (.inl hr)
  have hbytes := hc.bytes (by simp [hr, Reader.serving])
  rw [hr, hout] at hbytes
  rcases h with ⟨info, q, hq, rfl⟩ | ⟨d, q, hq, rfl⟩ | ⟨-, -, rfl⟩
  · refine ⟨fun _ => ?_, fun _ => ⟨hout, heof⟩, hc.done, hc.pending_ne_nil,
      fun d hd => hc.queue_ne_nil d (by simp [hq, hd]), fun he => by simp [heof] at he⟩
    split <;> simpa [hq, hout, Reader.cursor] using hbytes
  · exact ⟨fun h => by simp [Reader.serving] at h, fun _ => ⟨hout, heof⟩, hc.done,
      hc.pending_ne_nil, fun d hd => hc.queue_ne_nil d (by simp [hq, hd]),
      fun he => by simp [heof] at he⟩
  · exact ⟨fun h => by simp [Reader.serving] at h, fun _ => ⟨hout, heof⟩, hc.done,
      hc.pending_ne_nil, hc.queue_ne_nil, fun he => by simp [heof] at he⟩

theorem drain_conserves
    (hc : Conserves t s)
    (h : drain t s = some s') :
    Conserves t s' := by
  obtain ⟨hr, h⟩ := drain_eq_some h
  obtain ⟨hout, heof⟩ := hc.idle (.inr (by simp [hr, Reader.serving]))
  rcases h with ⟨m, q, hq, rfl⟩ | ⟨-, -, rfl⟩
  · exact ⟨fun h => by simp [hr, Reader.serving] at h, fun _ => ⟨hout, heof⟩, hc.done,
      hc.pending_ne_nil, fun d hd => hc.queue_ne_nil d (by simp [hq, hd]),
      fun he => by simp [heof] at he⟩
  · refine ⟨fun h => ?_, fun _ => ⟨hout, heof⟩, hc.done, hc.pending_ne_nil, hc.queue_ne_nil,
      fun he => by simp [heof] at he⟩
    split at h <;> simp [Reader.serving] at h

theorem read_conserves
    {n : Nat}
    (hs : Inv t s)
    (hc : Conserves t s)
    (hn : n ≠ 0)
    (h : read n s = some s') :
    Conserves t s' := by
  obtain ⟨cursor, hr, h⟩ := read_eq_some h
  have hserving : s.reader.serving = true := by simp [hr, Reader.serving]
  have hbytes := hc.bytes hserving
  rw [hr] at hbytes
  rcases h with ⟨-, hcur, rfl⟩ | ⟨hcur, ⟨data, q, hq, rfl⟩ | ⟨info, q, hq, rfl⟩ | ⟨hq, hf, rfl⟩⟩
  · refine ⟨fun _ => ?_, fun h => by simp [Reader.serving] at h, hc.done, hc.pending_ne_nil,
      hc.queue_ne_nil, fun he => absurd (by simpa [hr, Reader.cursor] using
        (hc.rest_eq_nil hserving he).1) hcur⟩
    show s.out ++ cursor.take n ++ cursor.drop n ++ _ ++ _ = _
    rwa [List.append_assoc s.out, List.take_append_drop]
  · obtain rfl : cursor = [] := hcur.resolve_left hn
    have hd : data ≠ [] := hc.queue_ne_nil data (by simp [hq])
    have htake : data.take n ≠ [] := by simp [List.take_eq_nil_iff, hn, hd]
    simp only [htake, decide_False, Bool.and_false, Bool.or_false]
    refine ⟨fun _ => ?_, fun h => by simp [Reader.serving] at h, hc.done, hc.pending_ne_nil,
      fun d hd => hc.queue_ne_nil d (by simp [hq, hd]), fun he => ?_⟩
    · show s.out ++ data.take n ++ data.drop n ++ _ ++ _ = _
      rw [List.append_assoc s.out, List.take_append_drop, ← hbytes, hq]
      simp [Reader.cursor]
    · have := (hc.rest_eq_nil hserving he).2.1
      simp [hq, hd] at this
  · simpa using hs.tail (by simp [hr]) (.inl info) (by simp [hq])
  · obtain rfl : cursor = [] := hcur.resolve_left hn
    have hout : s.out = t.chunks.flatten := by simpa [hq, hc.done hf, Reader.cursor] using hbytes
    exact ⟨fun _ => by simpa [hr] using hc.bytes hserving, fun h => by simp [hr, Reader.serving] at h,
      hc.done, hc.pending_ne_nil, hc.queue_ne_nil, fun _ => hout⟩

/-- Every step keeps the bytes of the body in place, but a read with an empty buffer. -/
theorem Conserves.step
    {e : Event}
    (hs : Inv t s)
    (hc : Conserves t s)
    (hn : ∀ n, e = .read n → n ≠ 0)
    (h : step t s e = some s') :
    Conserves t s' := by
  cases e with
  | write => exact write_conserves hc h
  | finish => exact finish_conserves hc h
  | recvInfo => exact recvInfo_conserves hc h
  | drain => exact drain_conserves hc h
  | read n => exact read_conserves hs hc (hn n rfl) h

end Conserves

/-- Every run whose reads have non-empty buffers keeps the bytes of the body in place. -/
theorem Conserves.run
    {t : Transfer} {s : HttpState}
    (hs : Inv t s)
    (hc : Conserves t s) :
    ∀ {es : List Event} {s' : HttpState}, (∀ n, Event.read n ∈ es → n ≠ 0) →
      Http.run t es s = some s' → Conserves t s'
  | [], _, _, h => by
      cases h
      exact hc
  | e :: es, s', hn, h => by
      obtain ⟨s₁, h₁, h⟩ := Option.bind_eq_some.mp h
      exact Conserves.run (hs.step h₁) (hc.step hs (fun n he => hn n (by simp [he])) h₁)
        (fun n hm => hn n (List.mem_cons_of_mem e hm)) h

/-- Over chunks that are not empty, in every run whose reads all have a non-empty buffer,
the reads return a prefix of the body, and all of it once one of them returns `0`. -/
theorem run_conserves
    {t : Transfer}
    (hchunks : ∀ c ∈ t.chunks, c ≠ [])
    {es : List Event} {s : HttpState}
    (hread : ∀ n, Event.read n ∈ es → n ≠ 0)
    (h : Http.run t es (init t) = some s) :
    s.out <+: t.chunks.flatten ∧ (s.eof = true → s.out = t.chunks.flatten) := by
  have hc := (init_conserves t hchunks).run (init_inv t) hread h
  refine ⟨?_, hc.eof⟩
  cases hr : s.reader.serving
  · rw [(hc.idle (.inr hr)).1]
    exact List.nil_prefix
  · exact ⟨_, by simpa only [List.append_assoc] using hc.bytes hr⟩

/-- Reads of 1 and 4 bytes over the chunks `ab` and `c`, interleaved with the worker, return
`abc` and then the end. -/
theorem run_conserves_split :
    Http.run ⟨200, [ascii "ab", ascii "c"], httpOk⟩
        [.write, .recvInfo, .read 1, .write, .finish, .read 4, .read 4, .read 4]
        (init ⟨200, [ascii "ab", ascii "c"], httpOk⟩) =
      some ⟨⟨false, [], true⟩, [], .reading [], ascii "abc", true⟩ ∧
    ascii "abc" <+: [ascii "ab", ascii "c"].flatten ∧
      (true = true → ascii "abc" = [ascii "ab", ascii "c"].flatten) :=
  ⟨rfl, @run_conserves ⟨200, [ascii "ab", ascii "c"], httpOk⟩ (by decide)
    [.write, .recvInfo, .read 1, .write, .finish, .read 4, .read 4, .read 4]
    ⟨⟨false, [], true⟩, [], .reading [], ascii "abc", true⟩
    (by intro n hn; simp at hn; omega) rfl⟩

/-- A read with an empty buffer while the cursor still holds bytes receives the next chunk
in their place, since `Cursor::read` returns `0` for an empty buffer: the `b` of the first
chunk is never returned, and the reads end with `0` after `acd`. -/
theorem run_read_empty_buffer :
    Http.run ⟨200, [ascii "ab", ascii "cd"], httpOk⟩
        [.write, .write, .finish, .recvInfo, .read 1, .read 0, .read 2, .read 2]
        (init ⟨200, [ascii "ab", ascii "cd"], httpOk⟩) =
      some ⟨⟨false, [], true⟩, [], .reading [], ascii "acd", true⟩ ∧
    ¬ ascii "acd" <+: ascii "ab" ++ ascii "cd" :=
  ⟨rfl, by decide⟩

/-! ## The result of the transfer -/

/-- `drain` is the only step that reads the result of `run_one_slot`. -/
theorem step_result
    {t : Transfer} {s : HttpState} {e : Event}
    (hr : s.reader ≠ .draining)
    (r : Int) :
    step t s e = step { t with result := r } s e := by
  cases e with
  | drain =>
      simp only [step, drain]
      split <;> simp_all
  | _ => rfl

/-- After a status below 300 the reader never sees the result of `run_one_slot`: every run
goes as it goes for the same transfer with any other result. -/
theorem run_result
    {t : Transfer}
    (h300 : t.httpStatus < 300)
    (r : Int) :
    ∀ (es : List Event) {s : HttpState}, Inv t s →
      Http.run t es s = Http.run { t with result := r } es s
  | [], _, _ => rfl
  | e :: es, s, hs => by
      simp only [Http.run]
      rw [← step_result (fun hd => absurd (hs.draining hd) (by omega)) r]
      cases hstep : step t s e with
      | none => rfl
      | some s₁ => exact run_result h300 r es (hs.step hstep)

theorem run_result_ok :
    (⟨200, [ascii "ab"], 2⟩ : Transfer).httpStatus < 300 ∧
    Http.run ⟨200, [ascii "ab"], 2⟩ [.write, .finish, .recvInfo, .read 2, .read 2]
        (init ⟨200, [ascii "ab"], 2⟩) =
      Http.run ⟨200, [ascii "ab"], httpOk⟩ [.write, .finish, .recvInfo, .read 2, .read 2]
        (init ⟨200, [ascii "ab"], 2⟩) :=
  ⟨by decide, @run_result ⟨200, [ascii "ab"], 2⟩ (by decide) httpOk _ _ (init_inv _)⟩

/-- A transfer that fails after a status below 300 reads as a complete body: the reads
return `ab`, then `0`, as for the same transfer with `HTTP_OK`, and no read fails. -/
theorem run_failure_after_info :
    Http.run ⟨200, [ascii "ab"], 2⟩ [.write, .finish, .recvInfo, .read 2, .read 2]
        (init ⟨200, [ascii "ab"], 2⟩) =
      some ⟨⟨false, [], true⟩, [], .reading [], ascii "ab", true⟩ ∧
    Http.run ⟨200, [ascii "ab"], httpOk⟩ [.write, .finish, .recvInfo, .read 2, .read 2]
        (init ⟨200, [ascii "ab"], httpOk⟩) =
      some ⟨⟨false, [], true⟩, [], .reading [], ascii "ab", true⟩ ∧
    (2 : Int) ≠ httpOk :=
  ⟨rfl, rfl, by decide⟩

end Http

end GitCinnabar
