import GitCinnabar.Changeset

/-!
# git-cinnabar: changesets from commits, and back

`RawHgChangeset::from_metadata` (`store.rs`) rebuilds the text of a Mercurial changeset from
a Git commit and its metadata record: Mercurial authorship from the commit's, a `committer`
extra when the committer differs from the author, the layout of `Changeset`, then the
record's patch, and last a loop that drops trailing NULs until the text hashes to the
recorded changeset id (they are what `handle_changeset_conflict` appended to the commit).
`GeneratedGitChangesetMetadata::generate` goes the other way: it records the fields of a
changeset text and, when `from_metadata` does not give the text back, a patch
`textdiff(raw, new)`.  `prepare_changeset_commit` writes the Git commit of a changeset.

**Model.**  `synthesize` is the part of `from_metadata` before the patch, `trimNul` its
loop; the parents' changeset ids are looked up once, since the loop body computes the same
list each time.  A panic is `.error`, a `None` of the source is `none`.  `hgNodeHash` is
Mercurial's node hash as the spec states it; the loop hashes `loopHashInput`.

**Results.**
* `trimNul_eq_some`: the loop only drops NULs.
* `trimNul_append_replicate`: NULs appended to a text that hashes to the id, or does not end
  in NUL, are dropped again when no longer text hashes to it.
* `fromMetadata_generate`: `from_metadata` gives back the text `generate` recorded whenever
  the loop hashes as Mercurial does; `loopHashInput_eq` says it does for zero or two parents.
* `loopHashInput_ne`: for one parent other than the null id it does not.
* `trimNul_append_replicate_largest`: of the NULs after a text not ending in NUL, the
  loop keeps the largest number `largestMatch` for which the text hashes to the id as the
  loop hashes; `trimNul_one_parent` is a text where Mercurial's hash keeps one more.
* `fromMetadata_eq_error`: `from_metadata` panics only on an extra entry without `:`, a
  patch out of range, or a patch that leaves NULs only; `fromMetadata_parse_panics` gives
  parsed records that panic on the first and the last.
-/

namespace GitCinnabar

/-- `parents.sort()` on changeset ids. -/
def sortIds (ids : List HgChangesetId) : List HgChangesetId :=
  ids.insertionSort fun a b => BytesLe a.bytes b.bytes

/-- What the loop of `from_metadata` hashes (lines 376-384): the parents' changeset ids
sorted, then padded with the null id, the first two of them, then the text. -/
def loopHashInput (parents : List HgChangesetId) (changeset : Bytes) : Bytes :=
  ((sortIds parents ++ [ObjectId.null, ObjectId.null]).take 2).flatMap (·.bytes) ++ changeset

/-- What Mercurial hashes for a changeset text, as the spec states it: the parents padded
with the null id to two entries, sorted, then the text. -/
def hgNodeInput (parents : List HgChangesetId) (text : Bytes) : Bytes :=
  (sortIds (parents ++ List.replicate (2 - parents.length) ObjectId.null)).flatMap
    (·.bytes) ++ text

/-- Mercurial's node hash of a changeset text. -/
def hgNodeHash (h : Host) (parents : List HgChangesetId) (text : Bytes) : HgChangesetId :=
  h.sha1 (hgNodeInput parents text)

/-- The largest `j` in `1..k` for which `p j` holds, `0` when there is none: the number of
trailing NULs the spec (§4.F) has the loop keep, for `p j` "the text with `j` NULs hashes
to the id". -/
def largestMatch (p : Nat → Prop) [DecidablePred p] : Nat → Nat
  | 0 => 0
  | j + 1 => if p (j + 1) then j + 1 else largestMatch p j

namespace RawHgChangeset

/-- The panic of `changeset[changeset.len() - 1]` on an empty buffer. -/
def indexOutOfBounds : String :=
  "index out of bounds: the len is 0 but the index is 18446744073709551615"

/-- The `while` loop of `from_metadata` (lines 370-387) on the text reversed: while the last
byte is NUL, look the parents up and hash; stop at `node`, else drop the byte. -/
def trimNulRev (h : Host) (parents : Option (List HgChangesetId)) (node : HgChangesetId) :
    Bytes → Except String (Option Bytes)
  | [] => .error indexOutOfBounds
  | b :: rest =>
      if b = 0 then
        match parents with
        | none => .ok none
        | some ps =>
            if h.sha1 (loopHashInput ps (b :: rest).reverse) = node then
              .ok (some (b :: rest).reverse)
            else trimNulRev h parents node rest
      else .ok (some (b :: rest).reverse)

/-- The loop of `from_metadata` on a text. -/
def trimNul (h : Host) (parents : Option (List HgChangesetId)) (node : HgChangesetId)
    (changeset : Bytes) : Except String (Option Bytes) :=
  trimNulRev h parents node changeset.reverse

/-- Lines 321-360 of `from_metadata`: the text written for a commit and a metadata record,
before the patch. -/
def synthesize (h : Host) (commit : Commit) (metadata : GitChangesetMetadata) :
    Except String Bytes := do
  let authorship := h.hgAuthorship commit.author
  let hgCommitter :=
    if commit.author ≠ commit.committer then some (h.hgCommitter commit.committer) else none
  let extra ← metadata.extraMap
  let extra := match hgCommitter with
    | some committer => some ((extra.getD ChangesetExtra.new).set (ascii "committer") committer)
    | none => extra
  pure (emit metadata.manifestId (metadata.author.getD authorship.author) authorship.timestamp
    authorship.utcoffset extra metadata.fileNames commit.body)

/-- `RawHgChangeset::from_metadata`. -/
def fromMetadata (h : Host) (commit : Commit) (metadata : GitChangesetMetadata) :
    Except String (Option Bytes) := do
  let changeset ← synthesize h commit metadata
  let patched ← match metadata.patch with
    | none => pure (some changeset)
    | some p => GitChangesetPatch.apply p changeset
  match patched with
  | none => pure none
  | some changeset =>
      trimNul h (commit.parents.mapM (GitChangesetId.toHg h)) metadata.changesetId changeset

/-- `RawHgChangeset::read`: the changeset of a commit, from the commit and its metadata. -/
def read (h : Host) (oid : GitObjectId) : Except String (Option Bytes) :=
  match h.commit oid, (RawGitChangesetMetadata.read h oid).bind RawGitChangesetMetadata.parse with
  | some commit, some metadata => fromMetadata h commit metadata
  | _, _ => .ok none

/-! ## The loop -/

section Loop

variable {h : Host} {node : HgChangesetId}

theorem trimNulRev_eq_some
    {parents : Option (List HgChangesetId)} :
    ∀ {rt t : Bytes}, trimNulRev h parents node rt = .ok (some t) →
      ∃ k, rt.reverse = t ++ List.replicate k 0
  | [], t, hr => by simp [trimNulRev] at hr
  | b :: rest, t, hr => by
      unfold trimNulRev at hr
      split at hr
      · next hb =>
          split at hr
          · cases hr
          · split at hr
            · cases hr
              exact ⟨0, by simp⟩
            · obtain ⟨k, hk⟩ := trimNulRev_eq_some hr
              exact ⟨k + 1, by simp [hk, hb, List.replicate_succ']⟩
      · cases hr
        exact ⟨0, by simp⟩

/-- The loop only drops NULs. -/
theorem trimNul_eq_some
    {parents : Option (List HgChangesetId)} {t t' : Bytes}
    (h : trimNul h parents node t = .ok (some t')) :
    ∃ k, t = t' ++ List.replicate k 0 := by
  simpa using trimNulRev_eq_some h

/-- A text that does not end in NUL is left as it is. -/
theorem trimNul_of_getLast
    {parents : Option (List HgChangesetId)} {t : Bytes}
    (hne : t ≠ [])
    (hlast : t.getLast? ≠ some 0) :
    trimNul h parents node t = .ok (some t) := by
  obtain ⟨b, rest, hr⟩ := List.exists_cons_of_ne_nil (List.reverse_ne_nil_iff.mpr hne)
  have hb : b ≠ 0 := fun hb => hlast (by rw [← List.head?_reverse, hr, hb]; rfl)
  simp only [trimNul, hr, trimNulRev, if_neg hb]
  rw [← hr, List.reverse_reverse]

/-- One round of the loop on a text ending in NUL: stop if it hashes to `node`, else go on
without that NUL. -/
theorem trimNul_append_replicate_succ
    (ps : List HgChangesetId) (t : Bytes) (k : Nat) :
    trimNul h (some ps) node (t ++ List.replicate (k + 1) 0) =
      if h.sha1 (loopHashInput ps (t ++ List.replicate (k + 1) 0)) = node then
        .ok (some (t ++ List.replicate (k + 1) 0))
      else trimNul h (some ps) node (t ++ List.replicate k 0) := by
  simp only [trimNul, List.reverse_append, List.reverse_replicate]
  rw [List.replicate_succ, List.cons_append, trimNulRev, if_pos rfl]
  simp only [List.reverse_cons, List.reverse_append, List.reverse_reverse,
    List.reverse_replicate, List.append_assoc, List.singleton_append, ← List.replicate_succ']
  rfl

/-- NULs appended to a text that hashes to `node`, or that does not end in NUL, are
dropped again when no text longer than it hashes to `node`. -/
theorem trimNul_append_replicate
    {ps : List HgChangesetId} {t : Bytes}
    (ht : t ≠ [])
    (hstop : t.getLast? ≠ some 0 ∨ h.sha1 (loopHashInput ps t) = node)
    (hext : ∀ k, 0 < k → h.sha1 (loopHashInput ps (t ++ List.replicate k 0)) ≠ node) :
    ∀ k, trimNul h (some ps) node (t ++ List.replicate k 0) = .ok (some t)
  | 0 => by
      obtain ⟨b, rest, hr⟩ := List.exists_cons_of_ne_nil (List.reverse_ne_nil_iff.mpr ht)
      have ht' : t = (b :: rest).reverse := by rw [← hr, List.reverse_reverse]
      have hlast : t.getLast? = some b := by rw [← List.head?_reverse, hr]; rfl
      simp only [trimNul, List.replicate_zero, List.append_nil, hr, trimNulRev]
      rw [← ht']
      split
      · next hb =>
          subst hb
          simp [hstop.resolve_left (by simpa using hlast)]
      · rfl
  | k + 1 => by
      rw [trimNul_append_replicate_succ, if_neg (hext (k + 1) (by omega)),
        trimNul_append_replicate ht hstop hext k]

theorem trimNulRev_eq_error
    {parents : Option (List HgChangesetId)} {err : String} :
    ∀ {rt : Bytes}, trimNulRev h parents node rt = .error err →
      err = indexOutOfBounds ∧ ∀ b ∈ rt, b = 0
  | [], hr => ⟨(Except.error.inj hr).symm, fun _ hb => absurd hb (List.not_mem_nil _)⟩
  | b :: rest, hr => by
      unfold trimNulRev at hr
      split at hr
      · next hb =>
          split at hr
          · cases hr
          · split at hr
            · cases hr
            · obtain ⟨he, hz⟩ := trimNulRev_eq_error hr
              exact ⟨he, by simpa [hb] using hz⟩
      · cases hr

/-- The loop panics only on a text of NULs, the empty text included. -/
theorem trimNul_eq_error
    {parents : Option (List HgChangesetId)} {t : Bytes} {err : String}
    (hr : trimNul h parents node t = .error err) :
    err = indexOutOfBounds ∧ ∀ b ∈ t, b = 0 := by
  simpa using trimNulRev_eq_error hr

/-- Of the NULs after a text that does not end in NUL, the loop keeps the most for which the
text hashes to `node`, as the loop hashes it, and none when no count does. -/
theorem trimNul_append_replicate_largest
    (ps : List HgChangesetId) {u : Bytes}
    (hu : u ≠ [])
    (hlast : u.getLast? ≠ some 0) :
    ∀ k, trimNul h (some ps) node (u ++ List.replicate k 0) = .ok (some (u ++ List.replicate
      (largestMatch (fun j => h.sha1 (loopHashInput ps (u ++ List.replicate j 0)) = node) k) 0))
  | 0 => by simpa [largestMatch] using trimNul_of_getLast hu hlast
  | k + 1 => by
      rw [trimNul_append_replicate_succ, largestMatch]
      split
      · rfl
      · exact trimNul_append_replicate_largest ps hu hlast k

end Loop

theorem ne_nil_of_parse
    {r : Bytes} {c : HgChangeset}
    (h : parse r = some c) :
    r ≠ [] := by
  rintro rfl
  cases h

theorem synthesize_patch
    (h : Host) (commit : Commit) (m : GitChangesetMetadata) (p : Option Bytes) :
    synthesize h commit { m with patch := p } = synthesize h commit m :=
  rfl

/-- The text written before the patch fails only on an extra value that `from` rejects. -/
theorem synthesize_eq_error
    {h : Host} {commit : Commit} {m : GitChangesetMetadata} {err : String}
    (hs : synthesize h commit m = .error err) :
    ∃ x, m.extra = some x ∧ ChangesetExtra.from x = .error err := by
  rcases bind_eq_error.mp hs with hx | ⟨_, -, hp⟩
  · cases hm : m.extra with
    | none => simp [GitChangesetMetadata.extraMap, hm, Option.mapM, pure, Except.pure] at hx
    | some x =>
        refine ⟨x, rfl, ?_⟩
        cases hf : ChangesetExtra.from x <;>
          simp_all [GitChangesetMetadata.extraMap, Option.mapM, Except.map]
  · cases hp

/-- The text written before the patch holds a line break, so it is never all NUL. -/
theorem nl_mem_synthesize
    {h : Host} {commit : Commit} {m : GitChangesetMetadata} {t : Bytes}
    (hs : synthesize h commit m = .ok t) :
    (10 : UInt8) ∈ t := by
  unfold synthesize at hs
  cases hx : m.extraMap with
  | error e => simp [hx, bind, Except.bind] at hs
  | ok extra =>
      simp only [hx, bind, Except.bind, pure, Except.pure, Except.ok.injEq] at hs
      subst hs
      simp [emit, layout]

/-- `from_metadata` panics only where `from` unwraps an extra entry without `:`, where the
patch reaches out of the text, or where the loop runs out of text: after a patch that leaves
NULs only. -/
theorem fromMetadata_eq_error
    {h : Host} {commit : Commit} {m : GitChangesetMetadata} {err : String}
    (hf : fromMetadata h commit m = .error err) :
    (∃ x, m.extra = some x ∧ err = ChangesetExtra.unwrapNone ∧
        ∃ a ∈ x.splitOn 0, (58 : UInt8) ∉ a) ∨
      err = sliceOutOfRange ∨
      (err = indexOutOfBounds ∧ ∃ p s t, m.patch = some p ∧ synthesize h commit m = .ok s ∧
        GitChangesetPatch.apply p s = .ok (some t) ∧ ∀ b ∈ t, b = 0) := by
  rcases bind_eq_error.mp hf with hs | ⟨s, hs, hf⟩
  · obtain ⟨x, hx, hfrom⟩ := synthesize_eq_error hs
    exact .inl ⟨x, hx, ChangesetExtra.from_eq_error hfrom⟩
  cases hp : m.patch with
  | none =>
      simp only [hp, pure_bind] at hf
      exact absurd ((trimNul_eq_error hf).2 10 (nl_mem_synthesize hs)) (by decide)
  | some p =>
      simp only [hp] at hf
      rcases bind_eq_error.mp hf with ha | ⟨_ | t, ha, hf⟩
      · exact .inr (.inl (GitChangesetPatch.apply_eq_error ha))
      · cases hf
      · obtain ⟨he, hz⟩ := trimNul_eq_error hf
        exact .inr (.inr ⟨he, p, s, t, rfl, hs, ha, hz⟩)

/-- Without a patch, `from_metadata` is the loop on the synthesized text. -/
theorem fromMetadata_of_patch_none
    (h : Host) (commit : Commit) {m : GitChangesetMetadata}
    (hm : m.patch = none) :
    fromMetadata h commit m = (synthesize h commit m).bind
      (trimNul h (commit.parents.mapM (GitChangesetId.toHg h)) m.changesetId) := by
  cases hs : synthesize h commit m <;> simp [fromMetadata, hs, hm, bind, Except.bind, pure, Except.pure]

end RawHgChangeset

namespace GeneratedGitChangesetMetadata

/-- The record `generate` fills before it compares (lines 168-183). -/
def temp (commit : Commit) (changesetId : HgChangesetId) (changeset : HgChangeset) :
    GitChangesetMetadata :=
  ⟨changesetId, changeset.manifest,
    if commit.author ≠ changeset.author then some changeset.author else none,
    changeset.extra, changeset.files, none⟩

/-- `GeneratedGitChangesetMetadata::generate`. -/
def generate (h : Host) (commit : Commit) (changesetId : HgChangesetId) (raw : Bytes) :
    Except String (Option GitChangesetMetadata) :=
  match RawHgChangeset.parse raw with
  | none => .ok none
  | some changeset =>
      (RawHgChangeset.fromMetadata h commit (temp commit changesetId changeset)).map
        (Option.map fun new =>
          if raw ≠ new then
            { temp commit changesetId changeset with
              patch := some (GitChangesetPatch.fromPatchInfo (h.textdiff raw new)) }
          else temp commit changesetId changeset)

end GeneratedGitChangesetMetadata

/-! ## The round trip -/

theorem GitChangesetPatch.apply_fromPatchInfo
    {patch : List PatchInfo}
    (h : patch ≠ [])
    (input : Bytes) :
    GitChangesetPatch.apply (GitChangesetPatch.fromPatchInfo patch) input =
      (xdiffApply patch input).map some := by
  rw [GitChangesetPatch.apply, GitChangesetPatch.iter, GitChangesetPatch.splitOn_fromPatchInfo h,
    GitChangesetPatch.mapM_parsePart]

/-- For zero or two parents the loop hashes what Mercurial hashes. -/
theorem loopHashInput_eq
    {ps : List HgChangesetId}
    (t : Bytes)
    (hps : ps.length = 0 ∨ ps.length = 2) :
    loopHashInput ps t = hgNodeInput ps t := by
  rcases hps with hps | hps
  · rw [List.length_eq_zero.mp hps]
    rfl
  · have hlen : (sortIds ps).length = 2 := by simp [sortIds, List.length_insertionSort, hps]
    simp [loopHashInput, hgNodeInput, hps, List.take_left' hlen]

/-- For zero or two parents the loop keeps the NULs the spec has it keep: the most for which
the text hashes to `node` as Mercurial hashes it, and none when no count does. -/
theorem trimNul_largest_hgNodeHash
    {h : Host} {node : HgChangesetId} {ps : List HgChangesetId} {u : Bytes}
    (hps : ps.length = 0 ∨ ps.length = 2)
    (hu : u ≠ [])
    (hlast : u.getLast? ≠ some 0)
    (k : Nat) :
    RawHgChangeset.trimNul h (some ps) node (u ++ List.replicate k 0) = .ok (some (u ++
      List.replicate (largestMatch (fun j => hgNodeHash h ps (u ++ List.replicate j 0) = node) k)
        0)) := by
  simpa only [hgNodeHash, loopHashInput_eq _ hps] using
    RawHgChangeset.trimNul_append_replicate_largest ps hu hlast k

theorem sortIds_pair_null
    {p : HgChangesetId}
    (hp : p ≠ ObjectId.null) :
    sortIds [p, ObjectId.null] = [ObjectId.null, p] := by
  have hlt : bytesLt ObjectId.null.bytes p.bytes = true := (ObjectId.null_le p).resolve_left hp
  simp [sortIds, List.orderedInsert, BytesLe, hlt]

/-- For one parent other than the null id the loop hashes the parent first, Mercurial the
null id first. -/
theorem loopHashInput_ne
    {p : HgChangesetId}
    (t : Bytes)
    (hp : p ≠ ObjectId.null) :
    loopHashInput [p] t ≠ hgNodeInput [p] t := by
  simp only [loopHashInput, hgNodeInput, List.length_singleton, Nat.reduceSub,
    List.replicate_one, List.singleton_append, sortIds_pair_null hp]
  intro heq
  have hlen : p.bytes.length = ObjectId.null.bytes.length := by
    rw [p.length_eq, ObjectId.null.length_eq]
  simp only [sortIds, List.insertionSort, List.orderedInsert, List.cons_append, List.nil_append,
    List.take_succ_cons, List.take_zero, List.flatMap_cons, List.flatMap_nil, List.append_nil,
    List.append_assoc] at heq
  exact hp (ObjectId.ext (List.append_inj heq hlen).1)

namespace GeneratedGitChangesetMetadata

open RawHgChangeset

/-- What `generate` can return: the record of a parsed text, with a patch exactly when
`from_metadata` on the record does not give the text back. -/
theorem generate_eq_some
    {h : Host} {commit : Commit} {node : HgChangesetId} {r : Bytes} {m : GitChangesetMetadata}
    (hgen : generate h commit node r = .ok (some m)) :
    ∃ c new, parse r = some c ∧ fromMetadata h commit (temp commit node c) = .ok (some new) ∧
      m = if r ≠ new then
        { temp commit node c with
          patch := some (GitChangesetPatch.fromPatchInfo (h.textdiff r new)) }
      else temp commit node c := by
  unfold generate at hgen
  split at hgen
  · cases hgen
  · next c hc =>
      cases hf : fromMetadata h commit (temp commit node c) with
      | error e => simp [hf, Except.map] at hgen
      | ok o =>
          cases o with
          | none => simp [hf, Except.map] at hgen
          | some new =>
              simp only [hf, Except.map, Option.map_some', Except.ok.injEq, Option.some.injEq] at hgen
              exact ⟨c, new, hc, hf, hgen.symm⟩

/-- `from_metadata` on the record `generate` fills is the loop on the synthesized text. -/
theorem fromMetadata_temp
    (h : Host) (c : Commit) (node : HgChangesetId) (cs : HgChangeset) :
    fromMetadata h c (temp c node cs) =
      (synthesize h c (temp c node cs)).bind
        (trimNul h (c.parents.mapM (GitChangesetId.toHg h)) node) :=
  fromMetadata_of_patch_none h c rfl

/-- `from_metadata` gives back the text `generate` recorded, whenever the loop hashes as
Mercurial does, no NUL-extension of the text hashes to its id, `textdiff` meets its
contract (§4.E) and the synthesized text fits a `usize`. -/
theorem fromMetadata_generate
    {h : Host} {commit : Commit} {node : HgChangesetId} {r : Bytes} {m : GitChangesetMetadata}
    {ps : List HgChangesetId}
    (hdiff : ∀ a b, b.length < 2 ^ 64 → xdiffApply (h.textdiff a b) b = .ok a)
    (hsize : ∀ t, synthesize h commit m = .ok t → t.length < 2 ^ 64)
    (hparents : commit.parents.mapM (GitChangesetId.toHg h) = some ps)
    (hhash : ∀ t, h.sha1 (loopHashInput ps t) = hgNodeHash h ps t)
    (hnode : hgNodeHash h ps r = node)
    (hext : ∀ k, 0 < k → hgNodeHash h ps (r ++ List.replicate k 0) ≠ node)
    (hgen : generate h commit node r = .ok (some m)) :
    fromMetadata h commit m = .ok (some r) := by
  obtain ⟨c, new, hc, hnew, rfl⟩ := generate_eq_some hgen
  rw [fromMetadata_temp] at hnew
  cases hs : synthesize h commit (temp commit node c) with
  | error e => simp [hs, Except.bind] at hnew
  | ok t =>
    simp only [hs, Except.bind] at hnew
    obtain ⟨k, rfl⟩ := trimNul_eq_some hnew
    by_cases hr : r = new
    · subst hr
      simp only [ne_eq, not_true_eq_false, if_false]
      rw [fromMetadata_temp, hs]
      exact hnew
    · have hlen : new.length < 2 ^ 64 := by
        have := hsize (new ++ List.replicate k 0)
          (by simp only [hr, ne_eq, not_false_eq_true, if_true, synthesize_patch, hs])
        simp at this
        omega
      have hD : h.textdiff r new ≠ [] := fun hD => hr (by simpa [hD] using (hdiff r new hlen).symm)
      simp only [hr, ne_eq, not_false_eq_true, if_true]
      simp only [fromMetadata, synthesize_patch, hs, GitChangesetPatch.apply_fromPatchInfo hD,
        xdiffApply_append _ (hdiff r new hlen), hparents, bind, Except.bind, Except.map]
      exact trimNul_append_replicate (ne_nil_of_parse hc) (.inr ((hhash r).trans hnode))
        (fun k hk => (hhash _).trans_ne (hext k hk)) k

end GeneratedGitChangesetMetadata


/-! ## Fixed inputs -/

/-- The parent's changeset id in the fixed inputs below. -/
def sampleParentId : HgChangesetId := ⟨List.replicate 20 1, rfl⟩

/-- The changeset id in the fixed inputs below. -/
def sampleNodeId : HgChangesetId := ⟨List.replicate 20 2, rfl⟩

/-- The parent commit in the fixed inputs below. -/
def sampleParentCommit : GitObjectId := ⟨List.replicate 20 3, rfl⟩

/-- The metadata blob of the parent commit. -/
def sampleParentMetadata : GitObjectId := ⟨List.replicate 20 4, rfl⟩

/-- A host for the fixed inputs: the parent commit's metadata names `sampleParentId`; the
SHA-1 gives `sampleNodeId` for Mercurial's hash of `oneParentText` only; `textdiff`
replaces the whole text; every Git author line reads as author `a` at `0 0`. -/
def sampleHost : Host where
  blob o := if o = sampleParentMetadata then some (ascii "changeset " ++ sampleParentId.display)
    else none
  git2hg o := if o = sampleParentCommit then some sampleParentMetadata else none
  hg2git _ := none
  commit _ := none
  replace o := o
  oidCommittish _ := none
  treeId _ := ObjectId.null
  sha1 s := if s = hgNodeInput [sampleParentId] oneParentText then sampleNodeId
    else ObjectId.null
  textdiff a b := if hb : b.length < 2 ^ 64 then [⟨0, ⟨b.length, hb⟩, a⟩] else []
  hgAuthorship _ := ⟨ascii "a", ascii "0", ascii "0"⟩
  hgCommitter c := c
  gitAuthorship a := a.author ++ 32 :: (a.timestamp ++ 32 :: a.utcoffset)
  gitCommitter c := c
where
  /-- A changeset whose description ends in NUL. -/
  oneParentText : Bytes := ObjectId.null.display ++ ascii "\na\n0 0\n\n\x00"

/-- A commit with the one parent `sampleParentCommit`. -/
def oneParentCommit : Commit := ⟨[sampleParentCommit], ascii "a 0 0", ascii "a 0 0", [0]⟩

theorem textdiff_sampleHost
    (a b : Bytes)
    (hb : b.length < 2 ^ 64) :
    xdiffApply (sampleHost.textdiff a b) b = .ok a := by
  rw [show sampleHost.textdiff a b = [⟨0, ⟨b.length, hb⟩, a⟩] from dif_pos hb]
  simp [xdiffApply, xdiffApply.go, Except.map]

theorem hgNodeHash_sampleHost
    (z : Bytes) :
    hgNodeHash sampleHost [sampleParentId] (sampleHost.oneParentText ++ z) =
      if z = [] then sampleNodeId else ObjectId.null := by
  by_cases hz : z = []
  · subst hz
    simp [hgNodeHash, sampleHost]
  · simp [hgNodeHash, sampleHost, hz, hgNodeInput]

/-- On a one-parent changeset whose text ends in one NUL and hashes to its id as Mercurial
hashes it, the spec keeps the NUL and the loop drops it: it hashes the parent first. -/
theorem trimNul_one_parent :
    oneParentCommit.parents.mapM (GitChangesetId.toHg sampleHost) = some [sampleParentId] ∧
    sampleHost.oneParentText = sampleHost.oneParentText.dropLast ++ List.replicate 1 0 ∧
    largestMatch (fun j => hgNodeHash sampleHost [sampleParentId]
      (sampleHost.oneParentText.dropLast ++ List.replicate j 0) = sampleNodeId) 1 = 1 ∧
    RawHgChangeset.trimNul sampleHost (some [sampleParentId]) sampleNodeId
      sampleHost.oneParentText = .ok (some sampleHost.oneParentText.dropLast) :=
  ⟨by decide, by decide, by decide, rfl⟩

/-- The loop hashes the one parent first: on a one-parent changeset whose text ends in
NUL, `from_metadata` of what `generate` records drops that NUL, although `textdiff` keeps
its contract, the parent has its changeset id, the id is Mercurial's hash of the text and
no NUL-extension of the text hashes to it. -/
theorem fromMetadata_generate_one_parent :
    (∀ a b, b.length < 2 ^ 64 → xdiffApply (sampleHost.textdiff a b) b = .ok a) ∧
    oneParentCommit.parents.mapM (GitChangesetId.toHg sampleHost) = some [sampleParentId] ∧
    hgNodeHash sampleHost [sampleParentId] sampleHost.oneParentText = sampleNodeId ∧
    (∀ k, 0 < k → hgNodeHash sampleHost [sampleParentId]
      (sampleHost.oneParentText ++ List.replicate k 0) ≠ sampleNodeId) ∧
    ∃ m, GeneratedGitChangesetMetadata.generate sampleHost oneParentCommit sampleNodeId
        sampleHost.oneParentText = .ok (some m) ∧
      RawHgChangeset.fromMetadata sampleHost oneParentCommit m =
        .ok (some sampleHost.oneParentText.dropLast) := by
  refine ⟨textdiff_sampleHost, by decide, by simpa using hgNodeHash_sampleHost [],
    fun k hk => ?_, _, rfl, rfl⟩
  have hk0 : k ≠ 0 := by omega
  rw [hgNodeHash_sampleHost, if_neg (by simpa using hk0)]
  decide

/-- A root commit. -/
def noParentCommit : Commit := ⟨[], ascii "a 0 0", ascii "a 0 0", []⟩

/-- The fixed host with a SHA-1 that gives `sampleNodeId` for Mercurial's hash of
`oneParentText` as a root changeset only. -/
def rootNulHost : Host :=
  { sampleHost with
    sha1 := fun s => if s = hgNodeInput [] sampleHost.oneParentText then sampleNodeId
      else ObjectId.null }

theorem hgNodeHash_rootNulHost
    (z : Bytes) :
    hgNodeHash rootNulHost [] (sampleHost.oneParentText ++ z) =
      if z = [] then sampleNodeId else ObjectId.null := by
  by_cases hz : z = []
  · subst hz
    simp [hgNodeHash, rootNulHost]
  · simp [hgNodeHash, rootNulHost, hz, hgNodeInput]

/-- On a root changeset the loop hashes as Mercurial does: `from_metadata` of what
`generate` records keeps the final NUL of a text that hashes to its id. -/
theorem fromMetadata_generate_root :
    hgNodeHash rootNulHost [] sampleHost.oneParentText = sampleNodeId ∧
    (∀ k, 0 < k → hgNodeHash rootNulHost [] (sampleHost.oneParentText ++ List.replicate k 0) ≠
      sampleNodeId) ∧
    ∃ m, GeneratedGitChangesetMetadata.generate rootNulHost noParentCommit sampleNodeId
        sampleHost.oneParentText = .ok (some m) ∧
      RawHgChangeset.fromMetadata rootNulHost noParentCommit m =
        .ok (some sampleHost.oneParentText) := by
  have hnode : hgNodeHash rootNulHost [] sampleHost.oneParentText = sampleNodeId := by
    simpa using hgNodeHash_rootNulHost []
  have hext : ∀ k, 0 < k → hgNodeHash rootNulHost [] (sampleHost.oneParentText ++
      List.replicate k 0) ≠ sampleNodeId := fun k hk => by
    rw [hgNodeHash_rootNulHost, if_neg (by simpa using Nat.pos_iff_ne_zero.mp hk)]
    decide
  exact ⟨hnode, hext, _, rfl, GeneratedGitChangesetMetadata.fromMetadata_generate textdiff_sampleHost
    (fun _ ht => by cases ht; decide) rfl (fun t => by rw [hgNodeHash, List.reverse_nil, @loopHashInput_eq [] t (.inl rfl)])
    hnode hext rfl⟩

theorem trimNul_largest_hgNodeHash_root :
    largestMatch (fun j => hgNodeHash rootNulHost []
      (sampleHost.oneParentText.dropLast ++ List.replicate j 0) = sampleNodeId) 1 = 1 ∧
    RawHgChangeset.trimNul rootNulHost (some []) sampleNodeId
        (sampleHost.oneParentText.dropLast ++ List.replicate 1 0) =
      .ok (some (sampleHost.oneParentText.dropLast ++ List.replicate (largestMatch (fun j =>
        hgNodeHash rootNulHost [] (sampleHost.oneParentText.dropLast ++ List.replicate j 0) =
          sampleNodeId) 1) 0)) :=
  ⟨by decide, @trimNul_largest_hgNodeHash rootNulHost sampleNodeId [] _ (.inl rfl) (by decide)
    (by decide) 1⟩

theorem loopHashInput_ne_sample :
    sampleParentId ≠ ObjectId.null ∧
      loopHashInput [sampleParentId] [] ≠ hgNodeInput [sampleParentId] [] :=
  ⟨by decide, loopHashInput_ne [] (by decide)⟩

/-- A metadata blob naming `sampleNodeId`, with one more line. -/
def sampleMetadataBlob (line : String) : Bytes :=
  ascii "changeset " ++ sampleNodeId.display ++ ascii ("\n" ++ line ++ "\n")

/-- Records that `parse` accepts make `from_metadata` panic on a root commit: an extra entry
without `:`, a patch that empties the 48-byte text, and one that leaves a single NUL. -/
theorem fromMetadata_parse_panics :
    noParentCommit.parents.mapM (GitChangesetId.toHg sampleHost) = some [] ∧
    (∃ m, RawGitChangesetMetadata.parse (sampleMetadataBlob "extra x") = some m ∧
      RawHgChangeset.fromMetadata sampleHost noParentCommit m =
        .error ChangesetExtra.unwrapNone) ∧
    (∃ m, RawGitChangesetMetadata.parse (sampleMetadataBlob "patch 0,48,") = some m ∧
      RawHgChangeset.fromMetadata sampleHost noParentCommit m =
        .error RawHgChangeset.indexOutOfBounds) ∧
    (∃ m, RawGitChangesetMetadata.parse (sampleMetadataBlob "patch 0,48,%00") = some m ∧
      RawHgChangeset.fromMetadata sampleHost noParentCommit m =
        .error RawHgChangeset.indexOutOfBounds) :=
  ⟨rfl, ⟨_, rfl, rfl⟩, ⟨_, rfl, rfl⟩, ⟨_, rfl, rfl⟩⟩

theorem fromMetadata_eq_error_extra :
    ∃ m, RawGitChangesetMetadata.parse (sampleMetadataBlob "extra x") = some m ∧
      RawHgChangeset.fromMetadata sampleHost noParentCommit m = .error ChangesetExtra.unwrapNone ∧
      ∃ x, m.extra = some x ∧ ∃ a ∈ x.splitOn 0, (58 : UInt8) ∉ a := by
  obtain ⟨m, hp, hf⟩ : ∃ m, RawGitChangesetMetadata.parse (sampleMetadataBlob "extra x") = some m ∧
      RawHgChangeset.fromMetadata sampleHost noParentCommit m = .error ChangesetExtra.unwrapNone :=
    ⟨_, rfl, rfl⟩
  rcases RawHgChangeset.fromMetadata_eq_error hf with ⟨x, hx, -, ha⟩ | h | ⟨h, -⟩
  · exact ⟨m, hp, hf, x, hx, ha⟩
  · exact absurd h (by decide)
  · exact absurd h (by decide)

/-- A changeset with two files and the author its commit's author line reads as. -/
def twoFilesText : Bytes := ObjectId.null.display ++ ascii "\na\n0 0\nf\ng\n\nm"

/-- A commit for `twoFilesText`. -/
def twoFilesCommit : Commit := ⟨[], ascii "a 0 0", ascii "a 0 0", ascii "m"⟩

/-- `generate` keeps the files block with its `\n`s, which `files()` splits at NUL, and
records the author although `from_metadata` derives the same one from the commit. -/
theorem generate_files_author :
    ∃ c m, RawHgChangeset.parse twoFilesText = some c ∧
      GeneratedGitChangesetMetadata.generate sampleHost twoFilesCommit sampleNodeId
        twoFilesText = .ok (some m) ∧
      (sampleHost.hgAuthorship twoFilesCommit.author).author = c.author ∧
      m.author = some c.author ∧
      c.fileNames = [ascii "f", ascii "g"] ∧ m.fileNames = [ascii "f\ng"] :=
  ⟨_, _, rfl, rfl, rfl, rfl, rfl, rfl⟩

end GitCinnabar
