import GitCinnabar.Metadata

/-!
# git-cinnabar: raw Mercurial changesets

A Mercurial changeset is the text
`manifest_hex LF author LF timestamp SP utcoffset [SP extra] (LF file)* LF LF body`
(`store.rs`, `RawHgChangeset`).  `parse` cuts it at its first blank line, the header into
at most four lines and the date line into at most three space-separated fields;
`from_metadata` writes it (lines 341-360) from a manifest id, an authorship, an extra map,
a file list it sorts and a body.

**Model.**  `parse` follows the source line by line; its failures are `none`.  The
writing half of `from_metadata` is `emit`, stated through the layout of §3 (`layout`)
so that the round trip can be taken apart piece by piece.

**Results.**
* `parse_emit`: for fields that keep clear of the separators, `parse` of the emitted
  text gives back every field, the extra map and the file names in ascending order.
-/

namespace GitCinnabar

/-- A parsed changeset (`HgChangeset`): each field a piece of the raw text. -/
structure HgChangeset where
  manifest : HgManifestId
  author : Bytes
  timestamp : Bytes
  utcoffset : Bytes
  extra : Option Bytes
  files : Option Bytes
  body : Bytes
deriving DecidableEq

namespace HgChangeset

/-- `extra()`: the extra block read by `ChangesetExtra::from`. -/
def extraMap (c : HgChangeset) : Except String (Option ChangesetExtra) :=
  c.extra.mapM ChangesetExtra.from

/-- `files()`: the files block split at `\n`, nothing when it is absent. -/
def fileNames (c : HgChangeset) : List Bytes :=
  match c.files with
  | none => []
  | some f => f.splitOn 10

end HgChangeset

namespace RawHgChangeset

/-- `RawHgChangeset::parse`. -/
def parse (r : Bytes) : Option HgChangeset := do
  let (header, body) ← splitFirstStr [10, 10] r
  let lines := splitn 10 4 header
  let manifest ← lines[0]?
  let author ← lines[1]?
  let date := splitn 32 3 (← lines[2]?)
  let timestamp ← date[0]?
  let utcoffset ← date[1]?
  let manifest ← ObjectId.fromBytes manifest
  pure ⟨manifest, author, timestamp, utcoffset, date[2]?, lines[3]?, body⟩

/-- The date line: `timestamp SP utcoffset [SP extra]`. -/
def dateLine (timestamp utcoffset : Bytes) (extra : Option Bytes) : Bytes :=
  timestamp ++ 32 :: (utcoffset ++ (extra.map (32 :: ·)).getD [])

/-- `(LF file)*`. -/
def filesBlock (files : List Bytes) : Bytes := files.flatMap (10 :: ·)

@[simp] theorem filesBlock_nil :
    filesBlock [] = [] := by
  rfl

@[simp] theorem filesBlock_cons
    (f : Bytes) (fs : List Bytes) :
    filesBlock (f :: fs) = 10 :: (f ++ filesBlock fs) := by
  simp [filesBlock]

/-- The layout of §3 around a date line: manifest, author, date, files, blank line,
body. -/
def layout (manifest : HgManifestId) (author date : Bytes) (files : List Bytes)
    (body : Bytes) : Bytes :=
  manifest.display ++ 10 :: (author ++ 10 :: (date ++ filesBlock files ++ 10 :: 10 :: body))

/-- `files.sort()`: Rust's sort of byte slices; for a total order any sort gives this
list. -/
def sortFiles (files : List Bytes) : List Bytes := files.insertionSort BytesLe

/-- Lines 341-360 of `from_metadata`: the text written for the given fields. -/
def emit (manifest : HgManifestId) (author timestamp utcoffset : Bytes)
    (extra : Option ChangesetExtra) (files : List Bytes) (body : Bytes) : Bytes :=
  layout manifest author (dateLine timestamp utcoffset (extra.map (·.dumpInto)))
    (sortFiles files) body

/-! ## Reading the layout back -/

theorem not_mem_display_nl
    (o : ObjectId) :
    (10 : UInt8) ∉ o.display :=
  ObjectId.not_mem_display o (by decide)

/-- A line after a `\n` does not start a blank line. -/
theorem splitFirstStr_line
    {p : Bytes} (r : Bytes)
    (h : (10 : UInt8) ∉ p)
    (hne : p ≠ []) :
    splitFirstStr [10, 10] (10 :: (p ++ r)) =
      (splitFirstStr [10, 10] r).map fun q => (10 :: (p ++ q.1), q.2) := by
  obtain ⟨y, p, rfl⟩ := List.exists_cons_of_ne_nil hne
  have hy : y ≠ 10 := fun hy => h (hy ▸ List.mem_cons_self _ _)
  rw [List.cons_append, splitFirstStr_nl_cons _ hy, ← List.cons_append,
    splitFirstStr_append_of_not_mem _ h]
  simp [Option.map_map, Function.comp_def]

/-- Lines after a `\n` start no blank line: the first one is at or after the `\n` that
follows them. -/
theorem splitFirstStr_filesBlock_append
    (r : Bytes) :
    ∀ {files : List Bytes}, (∀ f ∈ files, f ≠ [] ∧ (10 : UInt8) ∉ f) →
      splitFirstStr [10, 10] (filesBlock files ++ 10 :: r) =
        (splitFirstStr [10, 10] (10 :: r)).map fun q => (filesBlock files ++ q.1, q.2)
  | [], _ => by simp
  | f :: fs, h => by
      have hf := h f (List.mem_cons_self _ _)
      rw [filesBlock_cons, List.cons_append, List.append_assoc, splitFirstStr_line _ hf.2 hf.1,
        splitFirstStr_filesBlock_append r (fun g hg => h g (List.mem_cons_of_mem _ hg))]
      simp [Option.map_map, Function.comp_def]

theorem splitFirstStr_filesBlock
    (body : Bytes)
    {files : List Bytes}
    (h : ∀ f ∈ files, f ≠ [] ∧ (10 : UInt8) ∉ f) :
    splitFirstStr [10, 10] (filesBlock files ++ 10 :: 10 :: body) =
      some (filesBlock files, body) := by
  simp [splitFirstStr_filesBlock_append _ h]

/-- `f ++ (LF file)*` is the files joined with `\n`. -/
theorem append_filesBlock :
    ∀ (f : Bytes) (fs : List Bytes), f ++ filesBlock fs = joinWith 10 (f :: fs)
  | f, [] => by simp
  | f, g :: fs => by
      rw [joinWith_cons_cons, ← append_filesBlock g fs, filesBlock_cons]

theorem not_mem_dateLine
    {timestamp utcoffset : Bytes} {extra : Option Bytes} {c : UInt8}
    (ht : c ∉ timestamp)
    (hu : c ∉ utcoffset)
    (he : ∀ e ∈ extra, c ∉ e)
    (hc : c ≠ 32) :
    c ∉ dateLine timestamp utcoffset extra := by
  cases extra <;> simp_all [dateLine, Ne.symm hc]

theorem splitn_dateLine
    {timestamp utcoffset : Bytes}
    (extra : Option Bytes)
    (ht : (32 : UInt8) ∉ timestamp)
    (hu : (32 : UInt8) ∉ utcoffset) :
    splitn 32 3 (dateLine timestamp utcoffset extra) = [timestamp, utcoffset] ++ extra.toList := by
  cases extra with
  | none => simp [dateLine, ht, splitn_of_not_mem 2 (by decide) hu]
  | some e => simp [dateLine, ht, hu]

theorem splitn_header
    {manifest : HgManifestId} {author date : Bytes}
    (files : List Bytes)
    (ha : (10 : UInt8) ∉ author)
    (hd : (10 : UInt8) ∉ date) :
    splitn 10 4 (manifest.display ++ 10 :: (author ++ 10 :: (date ++ filesBlock files))) =
      [manifest.display, author, date] ++
        (if files = [] then [] else [joinWith 10 files]) := by
  rw [splitn_append _ _ _ (not_mem_display_nl manifest), splitn_append _ _ _ ha]
  cases files with
  | nil => simp [splitn_of_not_mem 2 (by decide) hd]
  | cons f fs => simp [hd, append_filesBlock]

/-- `parse` reads back every field of the layout. -/
theorem parse_layout
    {manifest : HgManifestId} {author timestamp utcoffset body : Bytes}
    {extra : Option Bytes} {files : List Bytes}
    (hauthor : author ≠ [] ∧ (10 : UInt8) ∉ author)
    (htime : (32 : UInt8) ∉ timestamp ∧ (10 : UInt8) ∉ timestamp)
    (hoffset : (32 : UInt8) ∉ utcoffset ∧ (10 : UInt8) ∉ utcoffset)
    (hextra : ∀ e ∈ extra, (10 : UInt8) ∉ e)
    (hfiles : ∀ f ∈ files, f ≠ [] ∧ (10 : UInt8) ∉ f) :
    parse (layout manifest author (dateLine timestamp utcoffset extra) files body) =
      some ⟨manifest, author, timestamp, utcoffset, extra,
        if files = [] then none else some (joinWith 10 files), body⟩ := by
  have hdate : (10 : UInt8) ∉ dateLine timestamp utcoffset extra :=
    not_mem_dateLine htime.2 hoffset.2 hextra (by decide)
  have hdate' : dateLine timestamp utcoffset extra ≠ [] := by simp [dateLine]
  have hsplit : splitFirstStr [10, 10]
      (layout manifest author (dateLine timestamp utcoffset extra) files body) =
      some (manifest.display ++ 10 :: (author ++ 10 ::
        (dateLine timestamp utcoffset extra ++ filesBlock files)), body) := by
    simp only [layout, List.append_assoc]
    rw [splitFirstStr_append_of_not_mem _ (not_mem_display_nl manifest),
      splitFirstStr_line _ hauthor.2 hauthor.1, splitFirstStr_line _ hdate hdate',
      splitFirstStr_filesBlock body hfiles]
    simp
  simp only [parse, hsplit, splitn_header files hauthor.2 hdate, Option.bind_eq_bind,
    Option.some_bind]
  cases files <;> cases extra <;> simp [splitn_dateLine _ htime.1 hoffset.1]

theorem sortFiles_sorted
    (files : List Bytes) :
    (sortFiles files).Sorted BytesLe :=
  List.sorted_insertionSort BytesLe files

theorem sortFiles_perm
    (files : List Bytes) :
    (sortFiles files).Perm files :=
  List.perm_insertionSort BytesLe files

theorem sortFiles_eq_self
    {files : List Bytes}
    (h : files.Sorted BytesLe) :
    sortFiles files = files :=
  List.eq_of_perm_of_sorted (sortFiles_perm files) (sortFiles_sorted files) h

/-- One line holding the file names joined with `\n` is the same files block. -/
theorem filesBlock_joinWith
    {files : List Bytes}
    (h : files ≠ []) :
    filesBlock [joinWith 10 files] = filesBlock files := by
  obtain ⟨f, fs, rfl⟩ := List.exists_cons_of_ne_nil h
  simp [append_filesBlock]

/-- `files()` of the layout's files block gives the file names back. -/
theorem fileNames_of_files
    {files : List Bytes}
    (h : ∀ f ∈ files, (10 : UInt8) ∉ f)
    (c : HgChangeset)
    (hc : c.files = if files = [] then none else some (joinWith 10 files)) :
    c.fileNames = files := by
  by_cases hf : files = []
  · simp [HgChangeset.fileNames, hc, hf]
  · simp [HgChangeset.fileNames, hc, hf, splitOn_joinWith h hf]

/-- `parse` reads back the text `from_metadata` writes: every field, the extra map, and the
file names in ascending byte order. -/
theorem parse_emit
    {manifest : HgManifestId} {author timestamp utcoffset body : Bytes}
    {extra : Option ChangesetExtra} {files : List Bytes}
    (hauthor : author ≠ [] ∧ (10 : UInt8) ∉ author)
    (htime : (32 : UInt8) ∉ timestamp ∧ (10 : UInt8) ∉ timestamp)
    (hoffset : (32 : UInt8) ∉ utcoffset ∧ (10 : UInt8) ∉ utcoffset)
    (hextra : ∀ e ∈ extra, e.OnOneLine)
    (hfiles : ∀ f ∈ files, f ≠ [] ∧ (10 : UInt8) ∉ f) :
    ∃ c, parse (emit manifest author timestamp utcoffset extra files body) = some c ∧
      c.manifest = manifest ∧ c.author = author ∧ c.timestamp = timestamp ∧
      c.utcoffset = utcoffset ∧ c.body = body ∧ c.extraMap = .ok extra ∧
      c.fileNames.Sorted BytesLe ∧ c.fileNames.Perm files := by
  have hsorted : ∀ f ∈ sortFiles files, f ≠ [] ∧ (10 : UInt8) ∉ f :=
    fun f hf => hfiles f ((sortFiles_perm files).subset hf)
  refine ⟨_, parse_layout hauthor htime hoffset (ChangesetExtra.not_mem_map_dumpInto hextra)
    hsorted, rfl, rfl, rfl, rfl, rfl,
    ChangesetExtra.mapM_from_dumpInto hextra, ?_⟩
  rw [fileNames_of_files (fun f hf => (hsorted f hf).2) _ rfl]
  exact ⟨sortFiles_sorted files, sortFiles_perm files⟩

/-- A one-file changeset read back. -/
theorem parse_emit_one_file :
    ∃ c, parse (emit ObjectId.null (ascii "a") (ascii "0") (ascii "0") none [ascii "f"] []) =
        some c ∧
      c.manifest = ObjectId.null ∧ c.author = ascii "a" ∧ c.timestamp = ascii "0" ∧
      c.utcoffset = ascii "0" ∧ c.body = [] ∧ c.extraMap = .ok none ∧
      c.fileNames.Sorted BytesLe ∧ c.fileNames.Perm [ascii "f"] :=
  parse_emit (by decide) (by decide) (by decide) (by simp) (by decide)

end RawHgChangeset

end GitCinnabar
