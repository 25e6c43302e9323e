import GitCinnabar.Host

/-!
# git-cinnabar: changeset metadata records

Next to each Git commit made from a Mercurial changeset, git-cinnabar keeps a metadata blob
(`store.rs`, `RawGitChangesetMetadata`): lines `key SP value` for the keys `changeset`,
`manifest`, `author`, `extra`, `files` and `patch`.  `parse` reads it into a
`GitChangesetMetadata`; an unknown key, a line without a space or a malformed id fails the
whole parse, a missing manifest is the null id and a missing changeset fails.

**Model.**  The record has one field per key.  The accessors `extra()` and `files()`
decode the `extra` and `files` values: `extra()` through `ChangesetExtra::from`, which may
panic, and `files()` by splitting at NUL.  The sources at hand never write a record;
`serialize` is modelled from the spec (§4.E).

**Results.**
* `not_mem_extra_of_parse`: a parsed `extra` value holds no `\n`, since it is a piece of
  one line of the blob.
* `parse_serialize`: the blob that lists a record's present fields, one line each, reads
  back as the record, with the null id for a missing manifest and each value less a final
  `\r`; `parse_serialize_cr` is such a value.
-/

namespace GitCinnabar

/-- A changeset metadata record (`GitChangesetMetadata<B>`). -/
structure GitChangesetMetadata where
  changesetId : HgChangesetId
  manifestId : HgManifestId
  author : Option Bytes
  extra : Option Bytes
  files : Option Bytes
  patch : Option Bytes
deriving DecidableEq

namespace GitChangesetMetadata

/-- `extra()`: the extra value read by `ChangesetExtra::from`. -/
def extraMap (m : GitChangesetMetadata) : Except String (Option ChangesetExtra) :=
  m.extra.mapM ChangesetExtra.from

/-- `files()`: the `files` value split at NUL, nothing when it is absent. -/
def fileNames (m : GitChangesetMetadata) : List Bytes :=
  match m.files with
  | none => []
  | some f => f.splitOn 0

end GitChangesetMetadata

/-- The fields `RawGitChangesetMetadata::parse` has read so far. -/
structure MetadataFields where
  changeset : Option HgChangesetId
  manifest : Option HgManifestId
  author : Option Bytes
  extra : Option Bytes
  files : Option Bytes
  patch : Option Bytes

namespace RawGitChangesetMetadata

/-- No field read yet. -/
def noFields : MetadataFields := ⟨none, none, none, none, none, none⟩

/-- One line of `parse`: `line.splitn_exact(b' ')?` and the match on its key. -/
def parseLine (f : MetadataFields) (line : Bytes) : Option MetadataFields :=
  match splitnExact 32 2 line with
  | some [key, value] =>
      if key = ascii "changeset" then
        (ObjectId.fromBytes value).map fun c => { f with changeset := some c }
      else if key = ascii "manifest" then
        (ObjectId.fromBytes value).map fun m => { f with manifest := some m }
      else if key = ascii "author" then some { f with author := some value }
      else if key = ascii "extra" then some { f with extra := some value }
      else if key = ascii "files" then some { f with files := some value }
      else if key = ascii "patch" then some { f with patch := some value }
      else none
  | _ => none

/-- `RawGitChangesetMetadata::parse`. -/
def parse (blob : Bytes) : Option GitChangesetMetadata := do
  let f ← (lines blob).foldlM parseLine noFields
  let changesetId ← f.changeset
  pure ⟨changesetId, f.manifest.getD ObjectId.null, f.author, f.extra, f.files, f.patch⟩

/-- `RawGitChangesetMetadata::read`: the blob the `git2hg` note of a commit names. -/
def read (h : Host) (commit : GitObjectId) : Option Bytes :=
  (h.git2hg commit).bind h.blob

/-- The `extra` value of every line read holds no byte that the lines do not hold. -/
theorem parseLine_extra
    {f f' : MetadataFields} {line : Bytes} {c : UInt8}
    (h : parseLine f line = some f')
    (hline : c ∉ line)
    (hf : ∀ e, f.extra = some e → c ∉ e) :
    ∀ e, f'.extra = some e → c ∉ e := by
  unfold parseLine at h
  split at h
  · next key value hsplit =>
      have hvalue : c ∉ value := by
        obtain ⟨a, b, hab, rfl, -⟩ := splitnExact_two_eq_some hsplit
        simp only [List.cons.injEq, and_true] at hab
        obtain ⟨-, rfl⟩ := hab
        exact fun hc => hline (by simp [hc])
      simp only [ite_eq_iff] at h
      rcases h with ⟨-, h⟩ | ⟨-, ⟨-, h⟩ | ⟨-, ⟨-, h⟩ | ⟨-, ⟨-, h⟩ | ⟨-, ⟨-, h⟩ | ⟨-, ⟨-, h⟩ |
        ⟨-, h⟩⟩⟩⟩⟩⟩
      iterate 2 obtain ⟨_, -, rfl⟩ := Option.map_eq_some'.mp h; exact hf
      all_goals cases h
      exacts [hf, fun e he => by cases he; exact hvalue, hf, hf]
  · cases h

theorem foldlM_parseLine_extra
    {c : UInt8} :
    ∀ {ls : List Bytes} {f f' : MetadataFields},
      ls.foldlM parseLine f = some f' →
      (∀ l ∈ ls, c ∉ l) →
      (∀ e, f.extra = some e → c ∉ e) →
      ∀ e, f'.extra = some e → c ∉ e
  | [], f, f', h, _, hf => by
      cases h
      exact hf
  | l :: ls, f, f', h, hls, hf => by
      simp only [List.foldlM_cons, Option.bind_eq_bind, Option.bind_eq_some] at h
      obtain ⟨g, hg, h⟩ := h
      exact foldlM_parseLine_extra h (fun x hx => hls x (List.mem_cons_of_mem _ hx))
        (parseLine_extra hg (hls l (List.mem_cons_self _ _)) hf)

/-- A parsed `extra` value is a piece of one line: it holds no `\n`. -/
theorem not_mem_extra_of_parse
    {blob : Bytes} {m : GitChangesetMetadata} {e : Bytes}
    (h : parse blob = some m)
    (he : m.extra = some e) :
    (10 : UInt8) ∉ e := by
  simp only [parse, Option.bind_eq_bind, Option.bind_eq_some] at h
  obtain ⟨f, hf, c, -, hm⟩ := h
  cases hm
  exact foldlM_parseLine_extra hf (fun l hl => not_mem_of_mem_lines hl) (by simp [noFields]) e he

/-! ## Writing a record -/

/-- Modelled from the spec: the line `key SP value` of a present field, without its `\n`;
nothing for an absent one. -/
def fieldLine (key : String) : Option Bytes → List Bytes
  | none => []
  | some value => [ascii key ++ 32 :: value]

/-- Modelled from the spec: the lines of the present fields, in the order `changeset,
manifest, author, extra, files, patch` (§4.E). -/
def fieldLines (f : MetadataFields) : List Bytes :=
  fieldLine "changeset" (f.changeset.map ObjectId.display) ++
    fieldLine "manifest" (f.manifest.map ObjectId.display) ++ fieldLine "author" f.author ++
    fieldLine "extra" f.extra ++ fieldLine "files" f.files ++ fieldLine "patch" f.patch

/-- Modelled from the spec: the blob of a record, each line ended by `\n`. -/
def serialize (f : MetadataFields) : Bytes :=
  (fieldLines f).flatMap (· ++ [10])

/-- `parseLine` on a line of each key: the value is all that follows the first space. -/
theorem parseLine_keys
    (f : MetadataFields)
    (v : Bytes) :
    parseLine f (ascii "changeset" ++ 32 :: v) =
        (ObjectId.fromBytes v).map (fun c => { f with changeset := some c }) ∧
      parseLine f (ascii "manifest" ++ 32 :: v) =
        (ObjectId.fromBytes v).map (fun m => { f with manifest := some m }) ∧
      parseLine f (ascii "author" ++ 32 :: v) = some { f with author := some v } ∧
      parseLine f (ascii "extra" ++ 32 :: v) = some { f with extra := some v } ∧
      parseLine f (ascii "files" ++ 32 :: v) = some { f with files := some v } ∧
      parseLine f (ascii "patch" ++ 32 :: v) = some { f with patch := some v } := by
  refine ⟨?_, ?_, ?_, ?_, ?_, ?_⟩ <;>
    rw [parseLine, splitnExact_two_append _ _ (by decide)] <;> rfl

/-- The line of a field, if present, sets that field and no other. -/
theorem foldlM_fieldLine_keys :
    (∀ g (c : Option ObjectId), (fieldLine "changeset" (c.map ObjectId.display)).foldlM
        parseLine g = some { g with changeset := c.or g.changeset }) ∧
      (∀ g (m : Option ObjectId), (fieldLine "manifest" (m.map ObjectId.display)).foldlM
        parseLine g = some { g with manifest := m.or g.manifest }) ∧
      (∀ g v, (fieldLine "author" v).foldlM parseLine g = some { g with author := v.or g.author }) ∧
      (∀ g v, (fieldLine "extra" v).foldlM parseLine g = some { g with extra := v.or g.extra }) ∧
      (∀ g v, (fieldLine "files" v).foldlM parseLine g = some { g with files := v.or g.files }) ∧
      (∀ g v, (fieldLine "patch" v).foldlM parseLine g = some { g with patch := v.or g.patch }) := by
  refine ⟨?_, ?_, ?_, ?_, ?_, ?_⟩ <;> intro g v <;> cases v <;> simp [fieldLine, parseLine_keys]

/-- Read line by line, the lines of a record give the record back. -/
theorem foldlM_fieldLines
    (r : MetadataFields) :
    (fieldLines r).foldlM parseLine noFields = some r := by
  simp [fieldLines, List.foldlM_append, foldlM_fieldLine_keys, noFields]

theorem not_mem_fieldLine
    {key : String} {v : Option Bytes} {c : UInt8}
    (hkey : c ∉ ascii key)
    (hc : c ≠ 32)
    (hv : ∀ x ∈ v, c ∉ x) :
    ∀ l ∈ fieldLine key v, c ∉ l := by
  cases v with
  | none => simp [fieldLine]
  | some x => simpa [fieldLine, hc] using ⟨hkey, hv x rfl⟩

/-- A final `\r` of a value is the final `\r` of its line. -/
theorem map_trimCr_fieldLine
    (key : String)
    (v : Option Bytes) :
    (fieldLine key v).map trimCr = fieldLine key (v.map trimCr) := by
  cases v <;> simp [fieldLine, trimCr_append_cons _ _ (by decide : (32 : UInt8) ≠ 13)]

theorem map_trimCr_display
    (o : Option ObjectId) :
    (o.map ObjectId.display).map trimCr = o.map ObjectId.display := by
  cases o <;> simp [trimCr_of_not_mem (ObjectId.not_mem_display _ (by decide))]

/-- `parse` of a serialized record whose values hold no `\n`: the record, with the null id
for a missing manifest, less the final `\r` of every value, which bstr's `lines()` takes
for part of the line terminator. -/
theorem parse_serialize
    (c : HgChangesetId)
    (manifest : Option HgManifestId)
    (author extra files patch : Option Bytes)
    (hnl : ∀ v ∈ [author, extra, files, patch], ∀ x ∈ v, (10 : UInt8) ∉ x) :
    parse (serialize ⟨some c, manifest, author, extra, files, patch⟩) =
      some ⟨c, manifest.getD ObjectId.null, author.map trimCr, extra.map trimCr,
        files.map trimCr, patch.map trimCr⟩ := by
  have hid : ∀ o : Option ObjectId, ∀ x ∈ o.map ObjectId.display, (10 : UInt8) ∉ x := by
    intro _ _ hx
    obtain ⟨o, -, rfl⟩ := Option.map_eq_some'.mp hx
    exact ObjectId.not_mem_display o (by decide)
  have hlines : ∀ l ∈ fieldLines ⟨some c, manifest, author, extra, files, patch⟩,
      (10 : UInt8) ∉ l := by
    simp only [fieldLines, List.mem_append]
    rintro l (((((h | h) | h) | h) | h) | h) <;>
      refine not_mem_fieldLine (by decide) (by decide) ?_ l h
    exacts [hid _, hid _, hnl _ (by simp), hnl _ (by simp), hnl _ (by simp), hnl _ (by simp)]
  have htrim : (fieldLines ⟨some c, manifest, author, extra, files, patch⟩).map trimCr =
      fieldLines ⟨some c, manifest, author.map trimCr, extra.map trimCr, files.map trimCr,
        patch.map trimCr⟩ := by
    simp only [fieldLines, List.map_append, map_trimCr_fieldLine, map_trimCr_display]
  rw [parse, serialize, lines_flatMap_nl hlines, htrim, foldlM_fieldLines]
  rfl

/-- An author ending in `\r` does not come back from its own line. -/
theorem parse_serialize_cr :
    parse (serialize ⟨some ObjectId.null, none, some (ascii "a\r"), none, none, none⟩) =
      some ⟨ObjectId.null, ObjectId.null, some (ascii "a"), none, none, none⟩ ∧
    ascii "a" ≠ ascii "a\r" := by
  rw [parse_serialize _ _ _ _ _ _ (by decide)]
  exact ⟨rfl, by decide⟩

end RawGitChangesetMetadata

/-- `GitChangesetId::to_hg`: the changeset id of a commit's metadata record. -/
def GitChangesetId.toHg (h : Host) (commit : GitObjectId) : Option HgChangesetId :=
  ((RawGitChangesetMetadata.read h commit).bind RawGitChangesetMetadata.parse).map
    (·.changesetId)

end GitCinnabar
