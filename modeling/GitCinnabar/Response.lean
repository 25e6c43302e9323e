import GitCinnabar.Channel

/-!
# git-cinnabar: reading an HTTP response

The callers of `HttpRequest::execute` (`hg_connect_http.rs`) read the response body through
`HttpResponse::read` with the loops of `std::io` and `util.rs`: `read_at_most` for the first
bytes of a reply, `io::copy` and `read_to_end` for the rest, `read_u8` and `take` for the
header of a `0.2` frame.  What they see depends on how curl cut the body into chunks and on
how the worker thread and the reader interleave; the loops are meant to make it depend on
the bytes of the body only.

**Model.**  `ResponseStream` is what `HttpResponse::read` has still to return once the info
is received: the cursor, then the chunks the channel delivers before it closes, and
`ResponseStream.read` is `HttpResponse::read` on it, one read after the other.  A consumer
is a `ReadProc`: a program that reads with a buffer size of its choosing and goes on with
what the read returned.  `jointRun` runs a consumer against the worker and the channel of
`Channel`, in any interleaving.  The loops of `std::io` and `util.rs` are not in the
sources; they are modelled from their documented contracts, with a fixed buffer size where
the standard library chooses one, and with an explicit fuel where they loop until a read
returns `0`.

**Results.**
* `jointRun_run`: in every interleaving of the worker, the channel and a consumer, what the
  consumer has done so far is what it does reading the same stream one read after the
  other; `jointRun_done` for a consumer that has finished.
* `read_bytes`: with a non-empty buffer over non-empty chunks, `HttpResponse::read` returns
  the next bytes of the body, at most as many as asked, and `0` only at its end.
* `takeRead_run`, `readAtMost_run`, `readUntilEof_run`, `ioCopy_run`, `readToEnd_run`,
  `readU8_run`: the loops return the bytes of the body they are meant to, however it is cut
  into chunks.
-/

namespace GitCinnabar

namespace Http

/-- What `HttpResponse::read` has still to return once the info is received: the unread
bytes of its cursor, then the chunks the channel delivers before it closes. -/
structure ResponseStream where
  cursor : Bytes
  chunks : List Bytes

/-- `HttpResponse::read` with a buffer of `n` bytes: the cursor's bytes while it has any for
a non-empty buffer, else the next chunk, which replaces the cursor; `0` once the channel is
closed.  The bytes returned, and what remains. -/
def ResponseStream.read (n : Nat) (σ : ResponseStream) : Bytes × ResponseStream :=
  if n ≠ 0 ∧ σ.cursor ≠ [] then (σ.cursor.take n, ⟨σ.cursor.drop n, σ.chunks⟩)
  else
    match σ.chunks with
    | data :: rest => (data.take n, ⟨data.drop n, rest⟩)
    | [] => ([], σ)

/-- The bytes of a stream, in the order the reads return them. -/
def ResponseStream.bytes (σ : ResponseStream) : Bytes := σ.cursor ++ σ.chunks.flatten

/-- The chunks still to come are not empty. -/
def ResponseStream.Chunked (σ : ResponseStream) : Prop := ∀ c ∈ σ.chunks, c ≠ []

/-- The chunks on the channel, in order. -/
def queuedChunks (q : List ChannelData) : List Bytes := q.filterMap Sum.getRight?

@[simp] theorem queuedChunks_nil :
    queuedChunks [] = [] :=
  rfl

@[simp] theorem queuedChunks_cons_inl
    (info : HttpResponseInfo) (q : List ChannelData) :
    queuedChunks (.inl info :: q) = queuedChunks q :=
  rfl

@[simp] theorem queuedChunks_cons_inr
    (d : Bytes) (q : List ChannelData) :
    queuedChunks (.inr d :: q) = d :: queuedChunks q :=
  rfl

@[simp] theorem queuedChunks_append
    (q r : List ChannelData) :
    queuedChunks (q ++ r) = queuedChunks q ++ queuedChunks r :=
  List.filterMap_append _ _ _

@[simp] theorem queuedChunks_sendInfo
    (t : Transfer) (s : HttpState) :
    queuedChunks (sendInfo t s).queue = queuedChunks s.queue := by
  rw [sendInfo_queue]
  split <;> simp [infoMsg]

/-- The stream a state of the channel holds for the reader: its cursor, the chunks on the
channel, then those curl has still to hand over. -/
def HttpState.stream (s : HttpState) : ResponseStream :=
  ⟨s.reader.cursor, queuedChunks s.queue ++ s.worker.pending⟩

/-- The worker has returned only after curl handed over every chunk. -/
def HttpState.Done (s : HttpState) : Prop := s.worker.finished = true → s.worker.pending = []

/-! ## The channel reads as the stream -/

section Stream

variable {t : Transfer} {s s' : HttpState}

theorem write_stream
    (h : write t s = some s') :
    s'.stream = s.stream ∧ s'.Done := by
  obtain ⟨c, rest, hp, -, rfl⟩ := write_eq_some h
  simp [HttpState.stream, HttpState.Done, hp]

theorem finish_stream
    (h : finish t s = some s') :
    s'.stream = s.stream ∧ s'.Done := by
  obtain ⟨hp, -, rfl⟩ := finish_eq_some h
  simp [HttpState.stream, HttpState.Done, hp]

/-- After a status below 300, receiving the info starts the reading with an empty cursor
and leaves the chunks where they are. -/
theorem recvInfo_stream
    (hs : Inv t s)
    (h300 : t.httpStatus < 300)
    (h : recvInfo s = some s') :
    s'.stream = s.stream ∧ s'.reader = .reading [] := by
  obtain ⟨hr, ⟨info, q, hq, rfl⟩ | ⟨d, q, hq, -⟩ | ⟨hq, hf, -⟩⟩ := recvInfo_eq_some h
  · have hfirst := hs.first_eq_false (by simp [hq])
    obtain ⟨q', hq', -⟩ := hs.head hr hfirst
    simp only [hq, infoMsg, List.cons.injEq, Sum.inl.injEq] at hq'
    obtain ⟨rfl, -⟩ := hq'
    simp [HttpState.stream, hr, hq, Reader.cursor, h300]
  · obtain ⟨q', hq', -⟩ := hs.head hr (hs.first_eq_false (by simp [hq]))
    simp [hq, infoMsg] at hq'
  · obtain ⟨q', hq', -⟩ := hs.head hr (hs.first_eq_false (by simp [hf]))
    simp [hq] at hq'

/-- A read of the channel returns what `ResponseStream.read` returns on the state's stream,
and leaves the rest of it. -/
theorem read_stream
    {n : Nat}
    (hs : Inv t s)
    (hdone : s.Done)
    (h : read n s = some s') :
    s'.stream = (s.stream.read n).2 ∧ s'.out = s.out ++ (s.stream.read n).1 ∧
      ∃ c, s'.reader = .reading c := by
  obtain ⟨cursor, hr, ⟨hn, hc, rfl⟩ | ⟨hnc, hcases⟩⟩ := read_eq_some h
  · simp [HttpState.stream, ResponseStream.read, hr, Reader.cursor, hn, hc]
  · have hif : ¬(n ≠ 0 ∧ cursor ≠ []) := by tauto
    rcases hcases with ⟨data, q, hq, rfl⟩ | ⟨info, q, hq, -⟩ | ⟨hq, hf, rfl⟩
    · simp [HttpState.stream, ResponseStream.read, hr, Reader.cursor, hif, hq]
    · have := hs.tail (by simp [hr]) (.inl info) (by simp [hq])
      simp at this
    · simp [HttpState.stream, ResponseStream.read, hr, Reader.cursor, hif, hq, hdone hf]

end Stream

/-! ## The read contract -/

/-- With a non-empty buffer, over non-empty chunks, `HttpResponse::read` returns the next
bytes of the stream, at most as many as asked, `0` only at its end, and leaves non-empty
chunks. -/
theorem read_bytes
    {n : Nat} {σ : ResponseStream}
    (hn : n ≠ 0)
    (hσ : σ.Chunked) :
    (σ.read n).1 ++ (σ.read n).2.bytes = σ.bytes ∧ (σ.read n).1.length ≤ n ∧
      ((σ.read n).1 = [] → σ.bytes = []) ∧ (σ.read n).2.Chunked := by
  unfold ResponseStream.read
  split
  · next hc =>
      refine ⟨by rw [ResponseStream.bytes, ResponseStream.bytes, ← List.append_assoc,
        List.take_append_drop], List.length_take_le _ _, fun h => ?_, hσ⟩
      simp [List.take_eq_nil_iff, hn, hc.2] at h
  · next hc =>
      have hcur : σ.cursor = [] := by tauto
      split
      · next data rest hch =>
          have hdata : data ≠ [] := hσ data (by simp [hch])
          refine ⟨by simp only [ResponseStream.bytes, hcur, hch, List.flatten_cons,
            List.nil_append, ← List.append_assoc, List.take_append_drop], List.length_take_le _ _,
            fun h => ?_, fun c hc => hσ c (by simp [hch, hc])⟩
          simp [List.take_eq_nil_iff, hn, hdata] at h
      · next hch => exact ⟨by simp, by simp, fun _ => by simp [ResponseStream.bytes, hcur, hch], hσ⟩

/-! ## Consumers -/

/-- A consumer of the response: finished with a result, or reading with a buffer of `n`
bytes and going on with the bytes the read returns. -/
inductive ReadProc (α : Type) where
  | done (a : α)
  | read (n : Nat) (k : Bytes → ReadProc α)

namespace ReadProc

variable {α β : Type}

/-- A consumer on a stream, its reads one after the other: its result and what remains. -/
def run : ReadProc α → ResponseStream → α × ResponseStream
  | done a, σ => (a, σ)
  | read n k, σ => (k (σ.read n).1).run (σ.read n).2

/-- One consumer, then another on its result. -/
def bind : ReadProc α → (α → ReadProc β) → ReadProc β
  | done a, f => f a
  | read n k, f => read n fun r => (k r).bind f

@[simp] theorem run_done
    (a : α) (σ : ResponseStream) :
    (done a).run σ = (a, σ) :=
  rfl

theorem run_bind
    (f : α → ReadProc β) :
    ∀ (p : ReadProc α) (σ : ResponseStream), (p.bind f).run σ = (f (p.run σ).1).run (p.run σ).2
  | done _, _ => rfl
  | read _ k, _ => run_bind f (k _) _

end ReadProc

/-! ## The loops of `std::io` and `util.rs` -/

/-- `Read::take(limit)` read to its end with reads of at most `bufSize` bytes: `Take::read`
asks for no more than what is left of `limit`, and returns `0` once it is reached.  The
bytes read, after `acc`, in at most `rounds` reads; every read but the last returns a byte
at least, so `limit` rounds are enough. -/
def takeRead (bufSize : Nat) : (rounds limit : Nat) → Bytes → ReadProc Bytes
  | 0, _, acc => .done acc
  | _, 0, acc => .done acc
  | rounds + 1, limit + 1, acc => .read (min bufSize (limit + 1)) fun r =>
      if r = [] then .done acc else takeRead bufSize rounds (limit + 1 - r.length) (acc ++ r)

/-- `ReadExt::read_at_most` (`util.rs`, not in the sources): reads into the rest of a buffer
of `cap` bytes until it is full or a read returns `0`. -/
def readAtMost (cap : Nat) : ReadProc Bytes := takeRead cap cap cap []

/-- A loop that reads with buffers of `bufSize` bytes until a read returns `0`, as
`io::copy` and `Read::read_to_end` do, for at most `fuel` reads: the bytes read after
`acc`; `none` when the fuel runs out. -/
def readUntilEof (bufSize : Nat) : Nat → Bytes → ReadProc (Option Bytes)
  | 0, _ => .done none
  | fuel + 1, acc => .read bufSize fun r =>
      if r = [] then .done (some acc) else readUntilEof bufSize fuel (acc ++ r)

/-- `io::copy`, whose stack buffer is `DEFAULT_BUF_SIZE`, 8 KiB. -/
def ioCopy (fuel : Nat) : ReadProc (Option Bytes) := readUntilEof 8192 fuel []

/-- `Read::read_to_end`, with reads of its probe size, 32 bytes. -/
def readToEnd (fuel : Nat) : ReadProc (Option Bytes) := readUntilEof 32 fuel []

/-- `ReadBytesExt::read_u8` (`byteorder`): `read_exact` of one byte, `none` for the
`UnexpectedEof` of an empty stream. -/
def readU8 : ReadProc (Option UInt8) := .read 1 fun r => .done r.head?

section Loops

variable {bufSize : Nat}

/-- `take(limit)` read to its end returns the first `limit` bytes of the stream, however
it is cut into chunks, and leaves the others. -/
theorem takeRead_run
    (hb : bufSize ≠ 0) :
    ∀ (rounds limit : Nat) (acc : Bytes) (σ : ResponseStream), limit ≤ rounds → σ.Chunked →
      ((takeRead bufSize rounds limit acc).run σ).1 = acc ++ σ.bytes.take limit ∧
      ((takeRead bufSize rounds limit acc).run σ).2.bytes = σ.bytes.drop limit ∧
      ((takeRead bufSize rounds limit acc).run σ).2.Chunked
  | _, 0, acc, σ, _, hσ => by cases ‹Nat› <;> simp [takeRead, hσ]
  | 0, _ + 1, _, _, hl, _ => absurd hl (by omega)
  | rounds + 1, l + 1, acc, σ, hl, hσ => by
      have hm : min bufSize (l + 1) ≠ 0 := by omega
      obtain ⟨happ, hlen, hnil, hch⟩ := read_bytes hm hσ
      simp only [takeRead, ReadProc.run]
      split
      · next hr =>
          have hb0 := hnil hr
          rw [hr, List.nil_append] at happ
          simp [hb0, happ, hch]
      · next hr =>
          have hr0 := List.length_pos.mpr hr
          have hle : (σ.read (min bufSize (l + 1))).1.length ≤ l + 1 := by omega
          obtain ⟨h1, h2, h3⟩ := takeRead_run hb rounds
            (l + 1 - (σ.read (min bufSize (l + 1))).1.length)
            (acc ++ (σ.read (min bufSize (l + 1))).1) _ (by omega) hch
          refine ⟨?_, ?_, h3⟩
          · rw [h1, ← happ, List.take_append_eq_append_take, List.take_of_length_le hle,
              List.append_assoc]
          · rw [h2, ← happ, List.drop_append_eq_append_drop, List.drop_eq_nil_of_le hle,
              List.nil_append]

/-- `read_at_most` with a buffer of `cap` bytes returns the first `cap` bytes of the stream,
or all of it when it is shorter, and leaves the others. -/
theorem readAtMost_run
    (cap : Nat)
    {σ : ResponseStream}
    (hσ : σ.Chunked) :
    ((readAtMost cap).run σ).1 = σ.bytes.take cap ∧
      ((readAtMost cap).run σ).2.bytes = σ.bytes.drop cap ∧ ((readAtMost cap).run σ).2.Chunked := by
  rcases Nat.eq_zero_or_pos cap with rfl | hcap
  · simp [readAtMost, takeRead, hσ]
  · simpa using takeRead_run (Nat.pos_iff_ne_zero.mp hcap) cap cap [] σ le_rfl hσ

/-- Reading until a read returns `0` returns the whole stream once the fuel exceeds its
length. -/
theorem readUntilEof_run
    (hb : bufSize ≠ 0) :
    ∀ (fuel : Nat) (acc : Bytes) (σ : ResponseStream), σ.Chunked → σ.bytes.length < fuel →
      ((readUntilEof bufSize fuel acc).run σ).1 = some (acc ++ σ.bytes) ∧
      ((readUntilEof bufSize fuel acc).run σ).2.bytes = [] ∧
      ((readUntilEof bufSize fuel acc).run σ).2.Chunked
  | fuel + 1, acc, σ, hσ, hfuel => by
      obtain ⟨happ, -, hnil, hch⟩ := read_bytes hb hσ
      simp only [readUntilEof, ReadProc.run]
      split
      · next hr =>
          rw [hr, List.nil_append] at happ
          simp [hnil hr, happ, hch]
      · next hr =>
          have hr0 := List.length_pos.mpr hr
          have hlen : (σ.read bufSize).2.bytes.length < fuel := by
            have := congrArg List.length happ
            simp only [List.length_append] at this
            omega
          obtain ⟨h1, h2, h3⟩ := readUntilEof_run hb fuel _ _ hch hlen
          exact ⟨by rw [h1, ← happ, List.append_assoc], h2, h3⟩

/-- `io::copy` returns the whole stream once the fuel exceeds its length. -/
theorem ioCopy_run
    {fuel : Nat} {σ : ResponseStream}
    (hσ : σ.Chunked)
    (hfuel : σ.bytes.length < fuel) :
    ((ioCopy fuel).run σ).1 = some σ.bytes ∧ ((ioCopy fuel).run σ).2.bytes = [] ∧
      ((ioCopy fuel).run σ).2.Chunked := by
  simpa using readUntilEof_run (by decide) fuel [] σ hσ hfuel

/-- `read_to_end` returns the whole stream once the fuel exceeds its length. -/
theorem readToEnd_run
    {fuel : Nat} {σ : ResponseStream}
    (hσ : σ.Chunked)
    (hfuel : σ.bytes.length < fuel) :
    ((readToEnd fuel).run σ).1 = some σ.bytes ∧ ((readToEnd fuel).run σ).2.bytes = [] ∧
      ((readToEnd fuel).run σ).2.Chunked := by
  simpa using readUntilEof_run (by decide) fuel [] σ hσ hfuel

/-- `read_u8` returns the first byte of the stream, `none` when it is empty, and leaves the
others. -/
theorem readU8_run
    {σ : ResponseStream}
    (hσ : σ.Chunked) :
    (readU8.run σ).1 = σ.bytes.head? ∧ (readU8.run σ).2.bytes = σ.bytes.drop 1 ∧
      (readU8.run σ).2.Chunked := by
  obtain ⟨happ, hlen, hnil, hch⟩ := read_bytes one_ne_zero hσ
  simp only [readU8, ReadProc.run]
  rw [← happ]
  rcases hr : (σ.read 1).1 with _ | ⟨b, _ | ⟨c, r⟩⟩
  · have h0 := hnil hr
    rw [hr, List.nil_append] at happ
    simp [happ, h0, hch]
  · exact ⟨rfl, rfl, hch⟩
  · simp [hr] at hlen

end Loops

/-! ## A consumer against the worker and the channel -/

/-- The turns of a run of the worker, the channel and one consumer of the response. -/
inductive Turn where
  /-- Curl calls `http_request_execute` with its next chunk. -/
  | write
  /-- `run_one_slot` returns; `http_send_info`; the thread returns. -/
  | finish
  /-- `execute_once` receives the info. -/
  | recvInfo
  /-- The consumer's next read, with the buffer size it chooses. -/
  | consume
deriving DecidableEq

variable {α : Type} (t : Transfer)

/-- One turn; `none` when it cannot happen now.  A read's bytes are what it appended to
the record of the reads. -/
def jointStep : HttpState × ReadProc α → Turn → Option (HttpState × ReadProc α)
  | (s, p), .write => (write t s).map (·, p)
  | (s, p), .finish => (finish t s).map (·, p)
  | (s, p), .recvInfo => (recvInfo s).map (·, p)
  | (s, .read n k), .consume => (read n s).map fun s' => (s', k (s'.out.drop s.out.length))
  | (_, .done _), .consume => none

/-- A run: the turns in order. -/
def jointRun : List Turn → HttpState × ReadProc α → Option (HttpState × ReadProc α)
  | [], sp => some sp
  | e :: es, sp => (jointStep t sp e).bind (jointRun es)

/-- What a run keeps: the channel's invariant, the worker returning after the last chunk,
the reader waiting for the info or reading, and the consumer's result from here on the
state's stream being what it does on the whole body read one read after the other. -/
structure JointInv (p₀ : ReadProc α) (sp : HttpState × ReadProc α) : Prop where
  inv : Inv t sp.1
  done : sp.1.Done
  reader : sp.1.reader = .waiting ∨ ∃ c, sp.1.reader = .reading c
  result : p₀.run ⟨[], t.chunks⟩ = sp.2.run sp.1.stream

section Joint

variable {t} {p₀ : ReadProc α} {sp sp' : HttpState × ReadProc α}

theorem JointInv.step
    (h300 : t.httpStatus < 300)
    (hi : JointInv t p₀ sp)
    {e : Turn}
    (h : jointStep t sp e = some sp') :
    JointInv t p₀ sp' := by
  obtain ⟨s, p⟩ := sp
  cases e with
  | write =>
      simp only [jointStep, Option.map_eq_some'] at h
      obtain ⟨s', hw, rfl⟩ := h
      obtain ⟨hst, hd⟩ := write_stream hw
      obtain ⟨c, rest, -, -, rfl⟩ := write_eq_some hw
      exact ⟨hi.inv.step (e := .write) hw, hd, hi.reader, hst ▸ hi.result⟩
  | finish =>
      simp only [jointStep, Option.map_eq_some'] at h
      obtain ⟨s', hw, rfl⟩ := h
      obtain ⟨hst, hd⟩ := finish_stream hw
      obtain ⟨-, -, rfl⟩ := finish_eq_some hw
      exact ⟨hi.inv.step (e := .finish) hw, hd, hi.reader, hst ▸ hi.result⟩
  | recvInfo =>
      simp only [jointStep, Option.map_eq_some'] at h
      obtain ⟨s', hw, rfl⟩ := h
      obtain ⟨hst, hr⟩ := recvInfo_stream hi.inv h300 hw
      obtain ⟨-, hcases⟩ := recvInfo_eq_some hw
      have hd : s'.Done := by
        rcases hcases with ⟨_, _, _, rfl⟩ | ⟨_, _, _, rfl⟩ | ⟨_, _, rfl⟩ <;> exact hi.done
      exact ⟨hi.inv.step (e := .recvInfo) hw, hd, .inr ⟨[], hr⟩, hst ▸ hi.result⟩
  | consume =>
      cases p with
      | done a => cases h
      | read n k =>
          simp only [jointStep, Option.map_eq_some'] at h
          obtain ⟨s', hw, rfl⟩ := h
          obtain ⟨hst, hout, c, hr⟩ := read_stream hi.inv hi.done hw
          obtain ⟨cursor, -, hcases⟩ := read_eq_some hw
          have hd : s'.Done := by
            rcases hcases with ⟨-, -, rfl⟩ | ⟨-, ⟨_, _, _, rfl⟩ | ⟨_, _, _, rfl⟩ | ⟨_, _, rfl⟩⟩ <;>
              exact hi.done
          refine ⟨hi.inv.step (e := .read n) hw, hd, .inr ⟨c, hr⟩, ?_⟩
          rw [hi.result, hst, hout, List.drop_left]
          rfl

theorem JointInv.run
    (h300 : t.httpStatus < 300) :
    ∀ {es : List Turn} {sp sp' : HttpState × ReadProc α},
      JointInv t p₀ sp → jointRun t es sp = some sp' → JointInv t p₀ sp'
  | [], _, _, hi, h => by
      cases h
      exact hi
  | e :: es, sp, sp', hi, h => by
      simp only [jointRun, Option.bind_eq_some] at h
      obtain ⟨sp₁, h₁, h⟩ := h
      exact JointInv.run h300 (hi.step h300 h₁) h

end Joint

/-- Before anything runs, the consumer stands where it starts, on the whole body. -/
theorem JointInv.init
    (t : Transfer) (p : ReadProc α) :
    JointInv t p (init t, p) :=
  ⟨init_inv t, (fun h => by cases h), .inl rfl,
    by simp [HttpState.stream, Http.init, Reader.cursor]⟩

/-- However the worker, the channel and a consumer interleave, after a status below 300 what
the consumer does from where it stands, on what the reader has still to return, is what it
does reading the whole body one read after the other: the same result, and the same bytes
left unread. -/
theorem jointRun_run
    {t : Transfer}
    (h300 : t.httpStatus < 300)
    (p : ReadProc α)
    {es : List Turn} {s : HttpState} {q : ReadProc α}
    (h : jointRun t es (init t, p) = some (s, q)) :
    q.run s.stream = p.run ⟨[], t.chunks⟩ :=
  (JointInv.run h300 (JointInv.init t p) h).result.symm

/-- Halfway through `read_to_end`, with the worker still holding a chunk, the consumer has the
first chunk and goes on as on the whole body. -/
theorem jointRun_run_halfway :
    jointRun ⟨200, [ascii "ab", ascii "c"], httpOk⟩ [.write, .recvInfo, .consume]
        (init ⟨200, [ascii "ab", ascii "c"], httpOk⟩, readToEnd 3) =
      some (⟨⟨false, [ascii "c"], false⟩, [], .reading [], ascii "ab", false⟩,
        readUntilEof 32 2 (ascii "ab")) ∧
    (readUntilEof 32 2 (ascii "ab")).run
        (HttpState.stream ⟨⟨false, [ascii "c"], false⟩, [], .reading [], ascii "ab", false⟩) =
      (readToEnd 3).run ⟨[], [ascii "ab", ascii "c"]⟩ :=
  ⟨rfl, @jointRun_run _ ⟨200, [ascii "ab", ascii "c"], httpOk⟩ (by decide) (readToEnd 3)
    [.write, .recvInfo, .consume] _ _ rfl⟩

/-- A consumer that has finished, in any interleaving, has the result it has on the whole
body read one read after the other, and leaves the same bytes unread. -/
theorem jointRun_done
    {t : Transfer}
    (h300 : t.httpStatus < 300)
    (p : ReadProc α)
    {es : List Turn} {s : HttpState} {a : α}
    (h : jointRun t es (init t, p) = some (s, .done a)) :
    (a, s.stream) = p.run ⟨[], t.chunks⟩ :=
  (JointInv.run h300 (JointInv.init t p) h).result.symm

end Http

end GitCinnabar
