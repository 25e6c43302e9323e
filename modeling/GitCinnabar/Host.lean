import GitCinnabar.Patch

/-!
# git-cinnabar: the host

`store.rs` calls into code that is not part of the sources at hand: git's object store and
notes (`RawBlob::read`, `RawCommit::read`, `hg2git`, `git2hg`, `lookup_replace_commit`),
the SHA-1 hasher behind `HgChangesetId::create`, xdiff's `textdiff` and the authorship
conversions of `hg_data`.  The spec lists them as collaborator interfaces (§6).

**Model.**  They are the fields of one structure, `Host`; every result of the development
holds for every host.  A parsed Git commit is the record of the fields the modelled code
reads; `RawCommit::read(..)?.parse()` is one lookup, since every caller treats the two
failures alike.
-/

namespace GitCinnabar

/-- A parsed Git commit (`libgit::Commit`): its parents, its authorship lines after
`author ` and `committer `, and its message. -/
structure Commit where
  parents : List GitObjectId
  author : Bytes
  committer : Bytes
  body : Bytes
deriving DecidableEq

/-- Mercurial authorship (`hg_data::HgAuthorship`): author, timestamp and utcoffset as
they appear in a changeset. -/
structure HgAuthorship where
  author : Bytes
  timestamp : Bytes
  utcoffset : Bytes
deriving DecidableEq

/-- The collaborators of `store.rs`. -/
structure Host where
  /-- `RawBlob::read`. -/
  blob : GitObjectId → Option Bytes
  /-- `git2hg.get_note`: the metadata blob of a commit. -/
  git2hg : GitObjectId → Option GitObjectId
  /-- `hg2git.get_note`: the commit of a changeset. -/
  hg2git : HgChangesetId → Option GitObjectId
  /-- `RawCommit::read(..)` then `parse()`. -/
  commit : GitObjectId → Option Commit
  /-- `lookup_replace_commit`. -/
  replace : GitObjectId → GitObjectId
  /-- `get_oid_committish`: the commit a revision names. -/
  oidCommittish : Bytes → Option GitObjectId
  /-- The id `write_object_file_flags` gives a tree. -/
  treeId : Bytes → GitObjectId
  /-- SHA-1 of a byte string, as `HgChangesetId::create`, `update` and `finalize` compute
  it. -/
  sha1 : Bytes → HgChangesetId
  /-- `xdiff::textdiff(a, b)`. -/
  textdiff : Bytes → Bytes → List PatchInfo
  /-- `HgAuthorship::from(GitAuthorship(line))`. -/
  hgAuthorship : Bytes → HgAuthorship
  /-- `HgCommitter::from(GitAuthorship(line)).0`. -/
  hgCommitter : Bytes → Bytes
  /-- `GitAuthorship::from(HgAuthorship { .. }).0`. -/
  gitAuthorship : HgAuthorship → Bytes
  /-- `GitAuthorship::from(HgCommitter(committer)).0`. -/
  gitCommitter : Bytes → Bytes

end GitCinnabar
