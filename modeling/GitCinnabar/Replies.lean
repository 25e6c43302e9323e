import GitCinnabar.Response
import GitCinnabar.Checkpoint

/-!
# git-cinnabar: what the wire commands make of a reply

`get_http_connection`, `push_command` and `changegroup_command` (`hg_connect_http.rs`) read
the reply to their request through `HttpResponse::read`.  `get_http_connection` looks at
the first four bytes of the reply to `capabilities`: `HG10` or `HG20` is a bundle served at
the URL, anything else the capabilities.  `push_command` passes on a reply that starts with
`HG20`, and cuts any other at its first `\n` into what goes to the caller and what goes to
stderr.  `changegroup_command` reads the `0.2` frame of a reply, a one-byte length and the
name of a compression, before handing the rest to a decoder.

**Model.**  Each command's handling of the reply is a `ReadProc`, built from the loops of
`Response`; the decoders, `PrefixWriter` and `HgCapabilities::new_from` are outside the
sources, so the result is what the command hands them: a bundle header and the response
left to read, the capabilities' bytes, the bytes for the caller and for stderr, or a codec
and the response left to read.  A panic or a `die!` is `.error` with its message.

**Results.**
* `openReply_joint`: whatever the chunks and the interleaving, the reply to `capabilities`
  opens a bundle exactly when it starts with `HG10` or `HG20`, and the bundle gets those
  four bytes and a response holding the rest; otherwise the capabilities are the whole
  reply.
* `pushReply_joint`: whatever the chunks and the interleaving, `push_command` returns the
  whole reply when it starts with `HG20`, and otherwise the split of the whole reply at its
  first `\n`, or panics when it has none.
* `changegroupReply_joint`: whatever the chunks and the interleaving, a `0.2` reply names
  the codec by the `len` bytes after its first byte `len`, or as many of them as there
  are, and the decoder gets a response holding the bytes after them.
-/

namespace GitCinnabar

namespace Http

/-! ## `get_http_connection` -/

/-- What `get_http_connection` makes of the reply to `capabilities` (lines 589-605). -/
inductive Opened where
  /-- An `HgHttpBundle`, whose `getbundle` reads this header, `HG10` or `HG20`, and then the
  rest of the response. -/
  | bundle (header : Bytes)
  /-- An `HgHttpConnection` with the capabilities read from these bytes. -/
  | connection (caps : Bytes)
deriving DecidableEq

/-- The reply to `capabilities`: at most four bytes by `read_at_most`; a bundle when they
are `HG10` or `HG20`, else the capabilities, those bytes and the rest by `io::copy`. -/
def openReply (fuel : Nat) : ReadProc (Option Opened) :=
  (readAtMost 4).bind fun header =>
    if header = ascii "HG10" ∨ header = ascii "HG20" then .done (some (.bundle header))
    else (ioCopy fuel).bind fun rest => .done (rest.map fun r => .connection (header ++ r))

/-! ## `push_command` -/

/-- The panic of `push_command` on a reply that is neither a bundle nor `stdout LF stderr`. -/
def badOutput : String := "Bad output from server"

/-- The reply to a push (lines 484-504): at most four bytes by `read_at_most`; after `HG20`
the rest by `io::copy`, all of it for the caller; else the rest by `read_to_end`, and the
whole cut at its first `\n` into the bytes for the caller and those for stderr. -/
def pushReply (fuel : Nat) : ReadProc (Option (Except String (Bytes × Bytes))) :=
  (readAtMost 4).bind fun header =>
    if header = ascii "HG20" then
      (ioCopy fuel).bind fun rest => .done (rest.map fun r => .ok (header ++ r, []))
    else
      (readToEnd fuel).bind fun rest => .done (rest.map fun r =>
        match splitnExact 10 2 (header ++ r) with
        | some [stdout, stderr] => .ok (stdout, stderr)
        | _ => .error badOutput)

/-! ## `changegroup_command` -/

/-- What `changegroup_command` does with a reply (lines 443-475). -/
inductive Changegroup where
  /-- The rest of the response goes through the decoder of this compression. -/
  | decode (codec : Bytes)
  /-- `err\n` goes to the output, and these bytes, prefixed, to stderr. -/
  | hgError (stderr : Bytes)
deriving DecidableEq

/-- The compressions of a `0.2` frame. -/
def codecs : List Bytes := [ascii "zstd", ascii "zlib", ascii "none", ascii "bzip2"]

/-- `die!("Server responded with unknown compression {}", String::from_utf8_lossy(comp))`. -/
def unknownCompression (comp : Bytes) : Bytes :=
  ascii "Server responded with unknown compression " ++ displayBytes comp

/-- The `UnexpectedEof` of `read_exact`, on which `read_u8().unwrap()` panics. -/
def unexpectedEof : Bytes := ascii "failed to fill whole buffer"

/-- The reply to a changegroup command, by its content type: `0.1` is zlib; `0.2` is a
frame, its length by `read_u8` and its compression by `take(len).read_to_end`; an
`hg-error` reply goes by `io::copy` to stderr; any other type is `unimplemented!()`. -/
def changegroupReply (contentType : Option Bytes) (fuel : Nat) :
    ReadProc (Option (Except Bytes Changegroup)) :=
  if contentType = some (ascii "application/mercurial-0.1") then
    .done (some (.ok (.decode (ascii "zlib"))))
  else if contentType = some (ascii "application/mercurial-0.2") then
    readU8.bind fun
      | none => .done (some (.error unexpectedEof))
      | some len => (takeRead 32 len.toNat len.toNat []).bind fun comp =>
          .done (some (if comp ∈ codecs then .ok (.decode comp)
            else .error (unknownCompression comp)))
  else if contentType = some (ascii "application/hg-error") then
    (ioCopy fuel).bind fun rest => .done (rest.map fun r => .ok (.hgError r))
  else .done (some (.error (ascii "not implemented")))

/-! ## On a stream -/

section Run

variable {fuel : Nat} {σ : ResponseStream}

theorem openReply_run
    (hσ : σ.Chunked)
    (hfuel : σ.bytes.length < fuel) :
    if σ.bytes.take 4 = ascii "HG10" ∨ σ.bytes.take 4 = ascii "HG20" then
      ((openReply fuel).run σ).1 = some (.bundle (σ.bytes.take 4)) ∧
        ((openReply fuel).run σ).2.bytes = σ.bytes.drop 4
    else ((openReply fuel).run σ).1 = some (.connection σ.bytes) := by
  obtain ⟨h1, h2, h3⟩ := readAtMost_run 4 hσ
  have hrest : (((readAtMost 4).run σ).2).bytes.length < fuel := by
    rw [h2, List.length_drop]
    omega
  rw [openReply, ReadProc.run_bind, h1]
  split
  · exact ⟨rfl, h2⟩
  · obtain ⟨hc, -⟩ := ioCopy_run h3 hrest
    rw [ReadProc.run_bind, hc, h2]
    simp

theorem pushReply_run
    (hσ : σ.Chunked)
    (hfuel : σ.bytes.length < fuel) :
    ((pushReply fuel).run σ).1 = some
      (if σ.bytes.take 4 = ascii "HG20" then .ok (σ.bytes, [])
      else match splitnExact 10 2 σ.bytes with
        | some [stdout, stderr] => .ok (stdout, stderr)
        | _ => .error badOutput) := by
  obtain ⟨h1, h2, h3⟩ := readAtMost_run 4 hσ
  have hrest : (((readAtMost 4).run σ).2).bytes.length < fuel := by
    rw [h2, List.length_drop]
    omega
  rw [pushReply, ReadProc.run_bind, h1]
  split
  · next hhg =>
      obtain ⟨hc, -⟩ := ioCopy_run h3 hrest
      rw [ReadProc.run_bind, hc, h2]
      simp
  · next hhg =>
      obtain ⟨hc, -⟩ := readToEnd_run h3 hrest
      rw [ReadProc.run_bind, hc, h2]
      simp

theorem changegroupReply_run
    (hσ : σ.Chunked) :
    match σ.bytes with
    | [] => ((changegroupReply (some (ascii "application/mercurial-0.2")) fuel).run σ).1 =
        some (.error unexpectedEof)
    | len :: rest =>
        ((changegroupReply (some (ascii "application/mercurial-0.2")) fuel).run σ).1 = some
          (if rest.take len.toNat ∈ codecs then .ok (.decode (rest.take len.toNat))
          else .error (unknownCompression (rest.take len.toNat))) ∧
        ((changegroupReply (some (ascii "application/mercurial-0.2")) fuel).run σ).2.bytes =
          rest.drop len.toNat := by
  obtain ⟨h1, h2, h3⟩ := readU8_run hσ
  have hct : changegroupReply (some (ascii "application/mercurial-0.2")) fuel =
      readU8.bind fun
        | none => .done (some (.error unexpectedEof))
        | some len => (takeRead 32 len.toNat len.toNat []).bind fun comp =>
            .done (some (if comp ∈ codecs then .ok (.decode comp)
              else .error (unknownCompression comp))) := by
    rw [changegroupReply, if_neg (by decide), if_pos rfl]
  rw [hct, ReadProc.run_bind, h1]
  split
  · next hb => simp [hb]
  · next len rest hb =>
      simp only [hb, List.head?_cons]
      rw [ReadProc.run_bind]
      rcases Nat.eq_zero_or_pos len.toNat with h0 | hpos
      · simp [h0, takeRead, h2, hb]
      · obtain ⟨hc1, hc2, -⟩ :=
          takeRead_run (show (32 : Nat) ≠ 0 by decide) len.toNat len.toNat [] _
          le_rfl h3
        rw [h2, hb] at hc1 hc2
        simp only [List.drop_succ_cons, List.drop_zero, List.nil_append] at hc1 hc2
        refine ⟨by simp [hc1], ?_⟩
        simpa using hc2

end Run

/-! ## Whatever the chunks and the interleaving -/

section Joint

variable {t : Transfer} {fuel : Nat} {es : List Turn} {s : HttpState}

/-- The stream before the info is received. -/
theorem chunked_init
    (hchunks : ∀ c ∈ t.chunks, c ≠ []) :
    (⟨[], t.chunks⟩ : ResponseStream).Chunked ∧
      (⟨[], t.chunks⟩ : ResponseStream).bytes = t.chunks.flatten :=
  ⟨hchunks, List.nil_append _⟩

/-- However curl cuts the reply to `capabilities` into chunks and the worker and the reader
interleave, `get_http_connection` opens a bundle exactly when the reply starts with `HG10`
or `HG20`, and the bundle gets those four bytes and a response that holds the rest of the
reply; otherwise the capabilities are read from the whole reply. -/
theorem openReply_joint
    (h300 : t.httpStatus < 300)
    (hchunks : ∀ c ∈ t.chunks, c ≠ [])
    (hfuel : t.chunks.flatten.length < fuel)
    {a : Option Opened}
    (h : jointRun t es (init t, openReply fuel) = some (s, .done a)) :
    if t.chunks.flatten.take 4 = ascii "HG10" ∨ t.chunks.flatten.take 4 = ascii "HG20" then
      a = some (.bundle (t.chunks.flatten.take 4)) ∧ s.stream.bytes = t.chunks.flatten.drop 4
    else a = some (.connection t.chunks.flatten) := by
  obtain ⟨hσ, hb⟩ := chunked_init hchunks
  have hrun := openReply_run hσ (hb ▸ hfuel)
  rw [← jointRun_done h300 _ h, hb] at hrun
  exact hrun

/-- `HG20` cut over two chunks still opens a bundle, which gets the rest of the second. -/
theorem openReply_joint_split_magic :
    jointRun ⟨200, [ascii "HG", ascii "20xyz"], httpOk⟩
        [.write, .recvInfo, .consume, .write, .consume]
        (init ⟨200, [ascii "HG", ascii "20xyz"], httpOk⟩, openReply 8) =
      some (⟨⟨false, [], false⟩, [], .reading (ascii "xyz"), ascii "HG20", false⟩,
        .done (some (.bundle (ascii "HG20")))) ∧
    some (Opened.bundle (ascii "HG20")) = some (.bundle ((ascii "HG20xyz").take 4)) ∧
      (HttpState.stream ⟨⟨false, [], false⟩, [], .reading (ascii "xyz"), ascii "HG20",
        false⟩).bytes = (ascii "HG20xyz").drop 4 :=
  ⟨rfl, by
    have h := @openReply_joint ⟨200, [ascii "HG", ascii "20xyz"], httpOk⟩ 8
      [.write, .recvInfo, .consume, .write, .consume]
      ⟨⟨false, [], false⟩, [], .reading (ascii "xyz"), ascii "HG20", false⟩
      (by decide) (by decide) (by decide) _ rfl
    rwa [if_pos (by decide)] at h⟩

/-- However curl cuts the reply to a push into chunks and the worker and the reader
interleave, `push_command` passes on the whole reply when it starts with `HG20`, and
otherwise cuts the whole reply at its first `\n`, or panics when it has none. -/
theorem pushReply_joint
    (h300 : t.httpStatus < 300)
    (hchunks : ∀ c ∈ t.chunks, c ≠ [])
    (hfuel : t.chunks.flatten.length < fuel)
    {a : Option (Except String (Bytes × Bytes))}
    (h : jointRun t es (init t, pushReply fuel) = some (s, .done a)) :
    a = some
      (if t.chunks.flatten.take 4 = ascii "HG20" then .ok (t.chunks.flatten, [])
      else match splitnExact 10 2 t.chunks.flatten with
        | some [stdout, stderr] => .ok (stdout, stderr)
        | _ => .error badOutput) := by
  obtain ⟨hσ, hb⟩ := chunked_init hchunks
  have hrun := pushReply_run hσ (hb ▸ hfuel)
  rw [← jointRun_done h300 _ h, hb] at hrun
  exact hrun

/-- A reply cut inside its first line still goes to the caller and to stderr at its `\n`. -/
theorem pushReply_joint_split_line :
    jointRun ⟨200, [ascii "o", ascii "k\nre", ascii "mote"], httpOk⟩
        [.write, .recvInfo, .consume, .write, .consume, .consume, .write, .consume, .finish,
          .consume]
        (init ⟨200, [ascii "o", ascii "k\nre", ascii "mote"], httpOk⟩, pushReply 12) =
      some (⟨⟨false, [], true⟩, [], .reading [], ascii "ok\nremote", true⟩,
        .done (some (.ok (ascii "ok", ascii "remote")))) ∧
    some (Except.ok (ascii "ok", ascii "remote")) = some
      (if (ascii "ok\nremote").take 4 = ascii "HG20" then .ok (ascii "ok\nremote", [])
      else match splitnExact 10 2 (ascii "ok\nremote") with
        | some [stdout, stderr] => .ok (stdout, stderr)
        | _ => .error badOutput) :=
  ⟨rfl, @pushReply_joint ⟨200, [ascii "o", ascii "k\nre", ascii "mote"], httpOk⟩ 12
    [.write, .recvInfo, .consume, .write, .consume, .consume, .write, .consume, .finish, .consume]
    ⟨⟨false, [], true⟩, [], .reading [], ascii "ok\nremote", true⟩
    (by decide) (by decide) (by decide) _ rfl⟩

/-- However curl cuts a `0.2` reply into chunks and the worker and the reader interleave,
`changegroup_command` panics on an empty reply, and otherwise takes the `len` bytes after
the first byte `len`, or as many as there are, for the name of the compression: a known
name hands the decoder a response that holds the bytes after them, any other dies. -/
theorem changegroupReply_joint
    (h300 : t.httpStatus < 300)
    (hchunks : ∀ c ∈ t.chunks, c ≠ [])
    {a : Option (Except Bytes Changegroup)}
    (h : jointRun t es (init t, changegroupReply (some (ascii "application/mercurial-0.2")) fuel) =
      some (s, .done a)) :
    match t.chunks.flatten with
    | [] => a = some (.error unexpectedEof)
    | len :: rest =>
        a = some (if rest.take len.toNat ∈ codecs then .ok (.decode (rest.take len.toNat))
          else .error (unknownCompression (rest.take len.toNat))) ∧
        s.stream.bytes = rest.drop len.toNat := by
  obtain ⟨hσ, hb⟩ := chunked_init hchunks
  have hrun := @changegroupReply_run fuel _ hσ
  rw [← jointRun_done h300 _ h, hb] at hrun
  exact hrun

/-- A frame that announces five bytes and ends after the four of `zlib` is taken for zlib. -/
theorem changegroupReply_joint_short_frame :
    jointRun ⟨200, [[5, 122, 108], [105, 98]], httpOk⟩
        [.write, .recvInfo, .consume, .consume, .write, .consume, .finish, .consume]
        (init ⟨200, [[5, 122, 108], [105, 98]], httpOk⟩,
          changegroupReply (some (ascii "application/mercurial-0.2")) 4) =
      some (⟨⟨false, [], true⟩, [], .reading [], [5, 122, 108, 105, 98], true⟩,
        .done (some (.ok (.decode (ascii "zlib"))))) ∧
    some (Except.ok (Changegroup.decode (ascii "zlib"))) = some
      (if (ascii "zlib").take 5 ∈ codecs then .ok (.decode ((ascii "zlib").take 5))
      else .error (unknownCompression ((ascii "zlib").take 5))) ∧
    (HttpState.stream ⟨⟨false, [], true⟩, [], .reading [], [5, 122, 108, 105, 98], true⟩).bytes =
      (ascii "zlib").drop 5 :=
  ⟨rfl, @changegroupReply_joint ⟨200, [[5, 122, 108], [105, 98]], httpOk⟩ 4
    [.write, .recvInfo, .consume, .consume, .write, .consume, .finish, .consume]
    ⟨⟨false, [], true⟩, [], .reading [], [5, 122, 108, 105, 98], true⟩
    (by decide) (by decide) _ rfl⟩

end Joint

end Http

end GitCinnabar
