import GitCinnabar.Reconstruct

/-!
# git-cinnabar: the commit of a changeset

`prepare_changeset_commit` (`store.rs`) writes the Git commit of a Mercurial changeset: its
tree, the commits of its parents, the Git authorship converted from the changeset's, a
committer taken from the `committer` extra when there is one, and the changeset's body.
`generate` then records what `from_metadata` needs to give the changeset back from that
commit.

**Model.**  `preparedCommit` is the commit as a record, `commitText` the text written for
it; a failed `unwrap` is `.error`.  `GitFormat` gives the authorship conversions of
`hg_data.rs`, not part of the sources, in the format of a Git author line, for the fixed
inputs.

**Results.**
* `fileNames_joinWith_nl`: `files()` of a metadata record reads the `\n`-joined files
  block that `generate` copies from the changeset as a single name.
* `generate_patch_none`: for a canonical changeset (the layout `from_metadata` writes for
  its own fields) without `committer` extra, trailing NUL or NUL in a file name, whose date
  survives the authorship conversions and whose Git author line differs from its author,
  `generate` on the prepared commit stores no patch.
* `generate_prepared_same_author`: when the Git author line equals the changeset's author,
  as `a <b> 0 +0000` does in Git's format, `generate` records no author, `from_metadata`
  derives another one, and a patch is stored.
-/

namespace GitCinnabar

/-- The commit `prepare_changeset_commit` writes for a changeset (lines 650-683): the
commits of its parents, the Git authorship of the changeset's, a committer from the
`committer` extra when there is one, and the changeset's body. -/
def preparedCommit (h : Host) (parent1 parent2 : Option HgChangesetId) (changesetBuf : Bytes) :
    Except String Commit := do
  let changeset ← match RawHgChangeset.parse changesetBuf with
    | some c => pure c
    | none => throw ChangesetExtra.unwrapNone
  let author : HgAuthorship := ⟨changeset.author, changeset.timestamp, changeset.utcoffset⟩
  let gitAuthor := h.gitAuthorship author
  let extra ← changeset.extraMap
  let gitCommitter := match extra.bind (·.get (ascii "committer")) with
    | some committer =>
        if committer.getLast? = some 62 then
          h.gitAuthorship ⟨committer, author.timestamp, author.utcoffset⟩
        else h.gitCommitter committer
    | none => gitAuthor
  let parents ← [parent1, parent2].filterMap id |>.mapM fun p =>
    match h.hg2git p with
    | some c => pure c
    | none => throw ChangesetExtra.unwrapNone
  pure ⟨parents, gitAuthor, gitCommitter, changeset.body⟩

/-- The text of a commit as `prepare_changeset_commit` writes it. -/
def commitText (treeId : GitObjectId) (c : Commit) : Bytes :=
  ascii "tree " ++ treeId.display ++ [10] ++
    c.parents.flatMap (fun p => ascii "parent " ++ p.display ++ [10]) ++
    ascii "author " ++ c.author ++ ascii "\ncommitter " ++ c.committer ++ [10, 10] ++ c.body

/-- `prepare_changeset_commit`. -/
def prepareChangesetCommit (h : Host) (treeId : GitObjectId)
    (parent1 parent2 : Option HgChangesetId) (changesetBuf : Bytes) : Except String Bytes :=
  (preparedCommit h parent1 parent2 changesetBuf).map (commitText treeId)

open RawHgChangeset GeneratedGitChangesetMetadata

/-- The commit prepared for a changeset without `committer` extra carries the Git
authorship of the changeset's as author and committer, and the changeset's body. -/
theorem preparedCommit_of_parse
    {h : Host} {p1 p2 : Option HgChangesetId} {r : Bytes} {cs : HgChangeset} {c : Commit}
    {extra : Option ChangesetExtra}
    (hparse : parse r = some cs)
    (hextra : cs.extraMap = .ok extra)
    (hcommitter : ∀ e ∈ extra, e.get (ascii "committer") = none)
    (hc : preparedCommit h p1 p2 r = .ok c) :
    c.author = h.gitAuthorship ⟨cs.author, cs.timestamp, cs.utcoffset⟩ ∧
      c.committer = c.author ∧ c.body = cs.body := by
  have hnone : extra.bind (·.get (ascii "committer")) = none := by
    cases extra with
    | none => rfl
    | some e => exact hcommitter e rfl
  simp only [preparedCommit, hparse, hextra, hnone, bind, Except.bind, pure, Except.pure] at hc
  split at hc
  · cases hc
  · cases hc
    exact ⟨rfl, rfl, rfl⟩

/-- `files()` of a record whose `files` value is names joined by `\n` gives them as one
name, since it splits at NUL. -/
theorem fileNames_joinWith_nl
    {files : List Bytes} {m : GitChangesetMetadata}
    (hfiles : ∀ f ∈ files, (0 : UInt8) ∉ f)
    (hm : m.files = if files = [] then none else some (joinWith 10 files)) :
    m.fileNames = if files = [] then [] else [joinWith 10 files] := by
  by_cases hf : files = []
  · simp [GitChangesetMetadata.fileNames, hm, hf]
  · simp only [GitChangesetMetadata.fileNames, hm, hf, if_false]
    refine splitOn_of_not_mem fun h0 => ?_
    rcases mem_joinWith h0 with h0 | ⟨f, hf, h0f⟩
    · exact absurd h0 (by decide)
    · exact hfiles f hf h0f

/-- `emit` writes the same text for sorted names as for their `\n`-join taken as one name. -/
theorem emit_joinWith_nl
    {manifest : HgManifestId} {author timestamp utcoffset body : Bytes}
    {extra : Option ChangesetExtra} {files : List Bytes}
    (hsort : sortFiles files = files) :
    emit manifest author timestamp utcoffset extra
        (if files = [] then [] else [joinWith 10 files]) body =
      emit manifest author timestamp utcoffset extra files body := by
  by_cases hf : files = []
  · simp [hf]
  · simp only [hf, if_false, emit, layout, hsort, ← filesBlock_joinWith hf]
    rfl

/-- `generate` stores no patch for a canonical changeset and the commit
`prepare_changeset_commit` writes for it. -/
theorem generate_patch_none
    {h : Host} {p1 p2 : Option HgChangesetId} {node : HgChangesetId} {c : Commit}
    {manifest : HgManifestId} {author timestamp utcoffset body : Bytes}
    {extra : Option ChangesetExtra} {files : List Bytes}
    (hauthor : author ≠ [] ∧ (10 : UInt8) ∉ author)
    (htime : (32 : UInt8) ∉ timestamp ∧ (10 : UInt8) ∉ timestamp)
    (hoffset : (32 : UInt8) ∉ utcoffset ∧ (10 : UInt8) ∉ utcoffset)
    (hextra : ∀ e ∈ extra, e.OnOneLine ∧ e.get (ascii "committer") = none)
    (hfiles : ∀ f ∈ files, f ≠ [] ∧ (10 : UInt8) ∉ f ∧ (0 : UInt8) ∉ f)
    (hsorted : files.Sorted BytesLe)
    (hnul : (emit manifest author timestamp utcoffset extra files body).getLast? ≠ some 0)
    (hsurvive :
      (h.hgAuthorship (h.gitAuthorship ⟨author, timestamp, utcoffset⟩)).timestamp = timestamp ∧
      (h.hgAuthorship (h.gitAuthorship ⟨author, timestamp, utcoffset⟩)).utcoffset = utcoffset)
    (hline : h.gitAuthorship ⟨author, timestamp, utcoffset⟩ ≠ author)
    (hc : preparedCommit h p1 p2 (emit manifest author timestamp utcoffset extra files body) =
      .ok c) :
    ∃ m, generate h c node (emit manifest author timestamp utcoffset extra files body) =
      .ok (some m) ∧ m.patch = none := by
  have hsort := sortFiles_eq_self hsorted
  set cs : HgChangeset := ⟨manifest, author, timestamp, utcoffset, extra.map (·.dumpInto),
    if files = [] then none else some (joinWith 10 files), body⟩ with hcs
  have hparse : parse (emit manifest author timestamp utcoffset extra files body) = some cs := by
    rw [emit, hsort]
    exact parse_layout hauthor htime hoffset
      (ChangesetExtra.not_mem_map_dumpInto fun e he => (hextra e he).1)
      fun f hf => ⟨(hfiles f hf).1, (hfiles f hf).2.1⟩
  obtain ⟨hca, hcc, hcb⟩ := preparedCommit_of_parse hparse
    (ChangesetExtra.mapM_from_dumpInto fun e he => (hextra e he).1)
    (fun e he => (hextra e he).2) hc
  have hsyn : synthesize h c (temp c node cs) =
      .ok (emit manifest author timestamp utcoffset extra files body) := by
    rw [← emit_joinWith_nl hsort,
      ← fileNames_joinWith_nl (fun f hf => (hfiles f hf).2.2) (m := temp c node cs) rfl]
    simp [synthesize, temp, hcs, hca, hcc, hcb, hline, hsurvive, GitChangesetMetadata.extraMap,
      ChangesetExtra.mapM_from_dumpInto fun e he => (hextra e he).1, bind, Except.bind, pure,
      Except.pure]
  refine ⟨temp c node cs, ?_, rfl⟩
  rw [generate, hparse]
  simp only [fromMetadata_temp, hsyn, Except.bind,
    trimNul_of_getLast (ne_nil_of_parse hparse) hnul, Except.map, Option.map_some']
  simp

/-! ## Authorship in Git's format

`hg_data.rs`, which converts between the two authorships, is not part of the sources.  The
conversions below are modelled on the format of a Git author line, `name <email> timestamp
±hhmm`, as `store_changesets_metadata` writes `author  <cinnabar@git> 0 +0000`: the
`name <email>` of a Mercurial author is the author up to its first `>`, and a utcoffset is
in seconds west of UTC, negative to the east. -/

namespace GitFormat

/-- Two decimal digits of a number below 100. -/
def twoDigits (n : Nat) : Bytes := [(48 + n / 10).toUInt8, (48 + n % 10).toUInt8]

/-- The `name <email>` of a Mercurial author: the author up to its first `>`, or the author
with an empty email. -/
def ident (author : Bytes) : Bytes :=
  if (62 : UInt8) ∈ author then author.takeWhile (· ≠ 62) ++ [62] else author ++ ascii " <>"

/-- The Git zone `±hhmm` of a utcoffset. -/
def zone (utcoffset : Bytes) : Bytes :=
  let east := utcoffset.head? = some 45
  let secs := digitsValue (if east then utcoffset.tail else utcoffset)
  (if east ∨ secs = 0 then 43 else 45) :: twoDigits (secs / 3600) ++ twoDigits (secs % 3600 / 60)

/-- The utcoffset of a Git zone `±hhmm`. -/
def offset (zone : Bytes) : Bytes :=
  let secs := digitsValue ((zone.drop 1).take 2) * 3600 + digitsValue (zone.drop 3) * 60
  if zone.head? = some 43 ∧ secs ≠ 0 then 45 :: decimal secs else decimal secs

/-- `GitAuthorship::from(HgAuthorship)`: `name <email> timestamp ±hhmm`. -/
def gitAuthorship (a : HgAuthorship) : Bytes :=
  ident a.author ++ 32 :: a.timestamp ++ 32 :: zone a.utcoffset

/-- `HgAuthorship::from(GitAuthorship)`: the line cut at its last two spaces. -/
def hgAuthorship (line : Bytes) : HgAuthorship :=
  match splitFirst 32 line.reverse with
  | some (zone, rest) =>
      match splitFirst 32 rest with
      | some (ts, who) => ⟨who.reverse, ts.reverse, offset zone.reverse⟩
      | none => ⟨line, [], []⟩
  | none => ⟨line, [], []⟩

example : gitAuthorship ⟨ascii "x", ascii "12", ascii "-3600"⟩ = ascii "x <> 12 +0100" := by
  decide

example : hgAuthorship (ascii "x <y> 12 -0530") = ⟨ascii "x <y>", ascii "12", ascii "19800"⟩ := by
  decide

end GitFormat

/-- The fixed host with the authorship conversions in Git's format. -/
def gitFormatHost : Host :=
  { sampleHost with
    hgAuthorship := GitFormat.hgAuthorship
    gitAuthorship := GitFormat.gitAuthorship }

/-- A canonical changeset with the author `a <b>`, the commit prepared for it, and its text. -/
def plainAuthorCommit : Commit := ⟨[], ascii "a <b> 0 +0000", ascii "a <b> 0 +0000", ascii "m"⟩

def plainAuthorText : Bytes :=
  emit ObjectId.null (ascii "a <b>") (ascii "0") (ascii "0") none [] (ascii "m")

theorem generate_patch_none_git_format :
    (gitFormatHost.hgAuthorship (gitFormatHost.gitAuthorship
      ⟨ascii "a <b>", ascii "0", ascii "0"⟩)) = ⟨ascii "a <b>", ascii "0", ascii "0"⟩ ∧
    gitFormatHost.gitAuthorship ⟨ascii "a <b>", ascii "0", ascii "0"⟩ ≠ ascii "a <b>" ∧
    preparedCommit gitFormatHost none none plainAuthorText = .ok plainAuthorCommit ∧
    ∃ m, generate gitFormatHost plainAuthorCommit sampleNodeId plainAuthorText = .ok (some m) ∧
      m.patch = none :=
  ⟨by decide, by decide, rfl, @generate_patch_none gitFormatHost none none sampleNodeId
    plainAuthorCommit ObjectId.null (ascii "a <b>") (ascii "0") (ascii "0") (ascii "m") none []
    (by decide) (by decide) (by decide) nofun nofun List.sorted_nil (by decide)
    ⟨by decide, by decide⟩ (by decide) rfl⟩

/-- A canonical changeset whose author ends like a Git author line. -/
def sameAuthorText : Bytes :=
  emit ObjectId.null (ascii "a <b> 0 +0000") (ascii "0") (ascii "0") none [] (ascii "m")

/-- When the Git author line written for a changeset's authorship equals its author,
`generate` compares the two, records no author, and stores a patch: `from_metadata` derives
the author `a <b>` from the line. -/
theorem generate_prepared_same_author
    {h : Host}
    (hgit : h.gitAuthorship ⟨ascii "a <b> 0 +0000", ascii "0", ascii "0"⟩ = ascii "a <b> 0 +0000")
    (hhg : h.hgAuthorship (ascii "a <b> 0 +0000") = ⟨ascii "a <b>", ascii "0", ascii "0"⟩) :
    RawHgChangeset.parse sameAuthorText =
      some ⟨ObjectId.null, ascii "a <b> 0 +0000", ascii "0", ascii "0", none, none, ascii "m"⟩ ∧
    (h.hgAuthorship (h.gitAuthorship
      ⟨ascii "a <b> 0 +0000", ascii "0", ascii "0"⟩)).timestamp = ascii "0" ∧
    (h.hgAuthorship (h.gitAuthorship
      ⟨ascii "a <b> 0 +0000", ascii "0", ascii "0"⟩)).utcoffset = ascii "0" ∧
    ∃ c m, preparedCommit h none none sameAuthorText = .ok c ∧
      generate h c sampleNodeId sameAuthorText = .ok (some m) ∧ m.patch.isSome := by
  have hparse : parse sameAuthorText =
      some ⟨ObjectId.null, ascii "a <b> 0 +0000", ascii "0", ascii "0", none, none, ascii "m"⟩ := rfl
  have hc : preparedCommit h none none sameAuthorText = .ok plainAuthorCommit := by
    simp only [preparedCommit, hparse, pure_bind, hgit]
    rfl
  have hsyn : synthesize h plainAuthorCommit (temp plainAuthorCommit sampleNodeId
      ⟨ObjectId.null, ascii "a <b> 0 +0000", ascii "0", ascii "0", none, none, ascii "m"⟩) =
      .ok plainAuthorText := by
    simp only [synthesize, plainAuthorCommit, hhg]
    rfl
  have htrim : ∀ ps, trimNul h ps sampleNodeId plainAuthorText = .ok (some plainAuthorText) :=
    fun _ => trimNul_of_getLast (by decide) (by decide)
  refine ⟨hparse, by rw [hgit, hhg], by rw [hgit, hhg], plainAuthorCommit, _, hc, by
    simp only [generate, hparse, fromMetadata_temp, hsyn, Except.bind, htrim, Except.map,
      Option.map_some']
    rfl, by rfl⟩

theorem generate_prepared_same_author_git_format :
    gitFormatHost.gitAuthorship ⟨ascii "a <b> 0 +0000", ascii "0", ascii "0"⟩ =
      ascii "a <b> 0 +0000" ∧
    gitFormatHost.hgAuthorship (ascii "a <b> 0 +0000") = ⟨ascii "a <b>", ascii "0", ascii "0"⟩ ∧
    ∃ c m, preparedCommit gitFormatHost none none sameAuthorText = .ok c ∧
      generate gitFormatHost c sampleNodeId sameAuthorText = .ok (some m) ∧ m.patch.isSome :=
  ⟨by decide, by decide, (@generate_prepared_same_author gitFormatHost (by decide) (by decide)).2.2.2⟩

end GitCinnabar
