import GitCinnabar.Metadata

/-!
# git-cinnabar: the head set

`store.rs` keeps the Mercurial heads in `CHANGESET_HEADS`, a `ChangesetHeads`: a map from
changeset id to its branch and an ordinal, and the next ordinal, `generation`.
`add_changeset_head` reads a changeset's metadata for its branch, drops those parents of
its commit that are heads of the same branch, and inserts it with the next ordinal (a null
metadata id removes it instead).  `changeset_heads` prints the heads and
`store_changesets_metadata` writes them as a checkpoint commit, both in the order of
`(ordinal, id, branch)`; `ChangesetHeads::new`, which `reset_changeset_heads` calls, reads
them back from the message of `refs/cinnabar/metadata^1`, numbering them by line.

**Model.**  The map is a list of heads with ascending ids, the order being a field of the
structure.  Each function is split where the source reads the host and where it updates
the map: `parentInfo` reads a parent, `dropParent` updates for it, and `addReads` does the
reads of `add_changeset_head` before its loop over the parents.

**Results.**
* `insert_perm`, `mem_insert`, `mem_remove`, `mem_ids_insert`, `mem_ids_remove`: the heads,
  and their ids, after `add_changeset_head`'s updates.
* `addChangesetHead_cases`: every successful `add_changeset_head` is a removal for a null
  metadata id, or its reads, then the drops of its parents, then the insertion.
* `foldlM_dropParent_of_branchesOf`: when every head carries the branch of its changeset,
  the drops remove exactly the parents that are heads on the branch.
-/

namespace GitCinnabar

/-! ## The head set -/

/-- A head: its changeset id, its branch and its ordinal. -/
structure Head where
  id : HgChangesetId
  branch : Bytes
  ordinal : Nat
deriving DecidableEq

/-- The key of a head in the map: the bytes of its id. -/
def Head.key (hd : Head) : Bytes := hd.id.bytes

/-- `ChangesetHeads`: the next ordinal and the heads, keyed by id. -/
structure ChangesetHeads where
  generation : Nat
  heads : List Head
  ascending : KeysAscending Head.key heads

/-- The panic of a failed `assert_eq!`. -/
def assertionFailed : String := "assertion `left == right` failed"

/-- `Option::unwrap`. -/
def unwrap {α : Type} : Option α → Except String α
  | some a => .ok a
  | none => .error ChangesetExtra.unwrapNone

/-- `extra().and_then(|e| e.get(b"branch")).unwrap_or(b"default")`: the branch a metadata
record names. -/
def GitChangesetMetadata.branch (m : GitChangesetMetadata) : Except String Bytes :=
  m.extraMap.map fun e => (e.bind (·.get (ascii "branch"))).getD (ascii "default")

namespace ChangesetHeads

/-- No heads. -/
def empty : ChangesetHeads := ⟨0, [], List.Pairwise.nil⟩

/-- `heads.remove(&cs)`. -/
def remove (s : ChangesetHeads) (cs : HgChangesetId) : ChangesetHeads :=
  ⟨s.generation, eraseBy Head.key cs.bytes s.heads, keysAscending_eraseBy _ s.ascending⟩

/-- `heads.get(&cs)`. -/
def get (s : ChangesetHeads) (cs : HgChangesetId) : Option Head :=
  findBy Head.key cs.bytes s.heads

/-- The insertion that ends `add_changeset_head`: the head takes the next ordinal. -/
def insert (s : ChangesetHeads) (cs : HgChangesetId) (branch : Bytes) : ChangesetHeads :=
  ⟨s.generation + 1, insertBy Head.key ⟨cs, branch, s.generation⟩ s.heads,
    keysAscending_insertBy _ s.ascending⟩

/-- The body of the loop over parents in `add_changeset_head`, once the parent's changeset
id and branch are read: a head of the same branch is removed. -/
def dropParent (branch : Bytes) (s : ChangesetHeads) (p : HgChangesetId × Bytes) :
    Except String ChangesetHeads :=
  if p.2 = branch then
    match s.get p.1 with
    | some hd => if hd.branch = p.2 then .ok (s.remove p.1) else .error assertionFailed
    | none => .ok s
  else .ok s

end ChangesetHeads

/-- What `add_changeset_head` reads for a parent commit: the changeset id and the branch of
the metadata of the commit that replaces it. -/
def parentInfo (h : Host) (parent : GitObjectId) : Except String (HgChangesetId × Bytes) := do
  let blob ← unwrap (RawGitChangesetMetadata.read h (h.replace parent))
  let m ← unwrap (RawGitChangesetMetadata.parse blob)
  let branch ← m.branch
  pure (m.changesetId, branch)

/-- The reads `add_changeset_head` makes before its loop: the changeset's branch, from its
metadata blob, and its commit. -/
def addReads (h : Host) (cs : HgChangesetId) (oid : GitObjectId) :
    Except String (Bytes × Commit) := do
  let blob ← unwrap (h.blob oid)
  let m ← unwrap (RawGitChangesetMetadata.parse blob)
  if m.changesetId ≠ cs then throw assertionFailed
  let branch ← m.branch
  let cid ← unwrap (h.hg2git cs)
  let commit ← unwrap (h.commit cid)
  pure (branch, commit)

/-- All that `add_changeset_head` reads for a changeset and its metadata blob: its branch
and the changeset id and branch of each parent of its commit. -/
def addInfo (h : Host) (cs : HgChangesetId) (oid : GitObjectId) :
    Except String (Bytes × List (HgChangesetId × Bytes)) := do
  let (branch, commit) ← addReads h cs oid
  let parents ← commit.parents.mapM (parentInfo h)
  pure (branch, parents)

/-- `add_changeset_head`. -/
def addChangesetHead (h : Host) (s : ChangesetHeads) (cs : HgChangesetId) (oid : GitObjectId) :
    Except String ChangesetHeads :=
  if oid = ObjectId.null then .ok (s.remove cs)
  else do
    let (branch, commit) ← addReads h cs oid
    let s ← commit.parents.foldlM
      (fun s parent => do ChangesetHeads.dropParent branch s (← parentInfo h parent)) s
    pure (s.insert cs branch)

/-! ## Loops that read as they go -/

section Interleave

variable {ε α β σ : Type} {read : α → Except ε β} {f : σ → β → Except ε σ}

/-- A loop that reads each item, then updates with it, is the reads first, then the
updates, when every read succeeds. -/
theorem foldlM_bind_of_mapM :
    ∀ {l : List α} {infos : List β} (s : σ), l.mapM read = .ok infos →
      l.foldlM (fun s a => do f s (← read a)) s = infos.foldlM f s
  | [], infos, s, h => by
      cases h
      rfl
  | a :: l, infos, s, h => by
      simp only [List.mapM_cons, bind_eq_ok] at h
      obtain ⟨b, hb, bs, hbs, h⟩ := h
      cases h
      simp only [List.foldlM_cons, hb, ok_bind]
      cases f s b with
      | error e => rfl
      | ok s' => exact foldlM_bind_of_mapM s' hbs

/-- A loop that reads as it goes and succeeds has made reads that all succeed. -/
theorem mapM_of_foldlM_bind :
    ∀ {l : List α} {s s' : σ}, l.foldlM (fun s a => do f s (← read a)) s = .ok s' →
      ∃ infos, l.mapM read = .ok infos ∧ infos.foldlM f s = .ok s'
  | [], s, s', h => ⟨[], rfl, h⟩
  | a :: l, s, s', h => by
      simp only [List.foldlM_cons, bind_eq_ok] at h
      obtain ⟨s₁, ⟨b, hb, hf⟩, h⟩ := h
      obtain ⟨bs, hbs, hfold⟩ := mapM_of_foldlM_bind h
      refine ⟨b :: bs, ?_, ?_⟩
      · rw [List.mapM_cons, hb, ok_bind, hbs]
        rfl
      · rw [List.foldlM_cons, hf, ok_bind, hfold]

end Interleave

/-! ## What `add_changeset_head` does -/

namespace ChangesetHeads

@[simp] theorem remove_generation
    (s : ChangesetHeads) (cs : HgChangesetId) :
    (s.remove cs).generation = s.generation :=
  rfl

@[simp] theorem insert_generation
    (s : ChangesetHeads) (cs : HgChangesetId) (b : Bytes) :
    (s.insert cs b).generation = s.generation + 1 :=
  rfl

/-- `remove` drops the head with that id. -/
@[simp] theorem mem_remove
    {s : ChangesetHeads} {cs : HgChangesetId} {hd : Head} :
    hd ∈ (s.remove cs).heads ↔ hd ∈ s.heads ∧ hd.id ≠ cs := by
  simp [remove, eraseBy, Head.key, ObjectId.ext_iff]

/-- `insert` puts the new head, with the generation as its ordinal, in place of the head
with its id. -/
theorem insert_perm
    (s : ChangesetHeads) (cs : HgChangesetId) (b : Bytes) :
    (s.insert cs b).heads.Perm (⟨cs, b, s.generation⟩ :: (s.remove cs).heads) :=
  insertBy_perm _ s.ascending

@[simp] theorem mem_insert
    {s : ChangesetHeads} {cs : HgChangesetId} {b : Bytes} {hd : Head} :
    hd ∈ (s.insert cs b).heads ↔ hd = ⟨cs, b, s.generation⟩ ∨ hd ∈ s.heads ∧ hd.id ≠ cs := by
  rw [(insert_perm s cs b).mem_iff, List.mem_cons, mem_remove]

/-- The ids of the heads after `insert`. -/
theorem mem_ids_insert
    {s : ChangesetHeads} {cs x : HgChangesetId} {b : Bytes} :
    x ∈ (s.insert cs b).heads.map (·.id) ↔ x = cs ∨ x ∈ s.heads.map (·.id) ∧ x ≠ cs := by
  simp only [List.mem_map, mem_insert]
  constructor
  · rintro ⟨hd, rfl | ⟨hm, hne⟩, rfl⟩
    · exact .inl rfl
    · exact .inr ⟨⟨hd, hm, rfl⟩, hne⟩
  · rintro (rfl | ⟨⟨hd, hm, rfl⟩, hne⟩)
    · exact ⟨_, .inl rfl, rfl⟩
    · exact ⟨hd, .inr ⟨hm, hne⟩, rfl⟩

/-- The ids of the heads after `remove`. -/
theorem mem_ids_remove
    {s : ChangesetHeads} {cs x : HgChangesetId} :
    x ∈ (s.remove cs).heads.map (·.id) ↔ x ∈ s.heads.map (·.id) ∧ x ≠ cs := by
  simp only [List.mem_map, mem_remove]
  constructor
  · rintro ⟨hd, ⟨hm, hne⟩, rfl⟩
    exact ⟨⟨hd, hm, rfl⟩, hne⟩
  · rintro ⟨⟨hd, hm, rfl⟩, hne⟩
    exact ⟨hd, ⟨hm, hne⟩, rfl⟩

theorem get_eq_some
    {s : ChangesetHeads} {cs : HgChangesetId} {hd : Head}
    (h : s.get cs = some hd) :
    hd ∈ s.heads ∧ hd.id = cs := by
  have := List.find?_some h
  simp only [decide_eq_true_eq, Head.key] at this
  exact ⟨List.mem_of_find?_eq_some h, ObjectId.ext this⟩

/-- Removing an id that is no head changes nothing. -/
theorem remove_of_get_eq_none
    {s : ChangesetHeads} {cs : HgChangesetId}
    (h : s.get cs = none) :
    s.remove cs = s := by
  have hne : ∀ hd ∈ s.heads, Head.key hd ≠ cs.bytes := fun hd hd' he => by
    simpa [he] using List.find?_eq_none.mp h hd hd'
  cases s
  simp only [remove, mk.injEq, true_and]
  exact eraseBy_of_forall_ne hne

/-- The loop body keeps the heads, or removes the parent. -/
theorem dropParent_cases
    {branch : Bytes} {s s' : ChangesetHeads} {p : HgChangesetId × Bytes}
    (h : dropParent branch s p = .ok s') :
    s' = s ∨ s' = s.remove p.1 := by
  unfold dropParent at h
  split at h
  · split at h
    · split at h
      · exact .inr (Except.ok.inj h).symm
      · cases h
    · exact .inl (Except.ok.inj h).symm
  · exact .inl (Except.ok.inj h).symm

/-- What removals keep, the loop over parents keeps. -/
theorem foldlM_dropParent_of_remove
    {branch : Bytes} {P : ChangesetHeads → Prop}
    (hP : ∀ s cs, P s → P (s.remove cs)) :
    ∀ {infos : List (HgChangesetId × Bytes)} {s s' : ChangesetHeads},
      infos.foldlM (dropParent branch) s = .ok s' → P s → P s'
  | [], s, s', h, hs => by
      cases h
      exact hs
  | p :: infos, s, s', h, hs => by
      obtain ⟨s₁, h₁, h⟩ := bind_eq_ok.mp h
      refine foldlM_dropParent_of_remove hP h ?_
      rcases dropParent_cases h₁ with rfl | rfl
      · exact hs
      · exact hP _ _ hs

section Consistent

variable {branchOf : HgChangesetId → Bytes} {branch : Bytes}

/-- Heads whose branches are those of their changesets. -/
def BranchesOf (branchOf : HgChangesetId → Bytes) (s : ChangesetHeads) : Prop :=
  ∀ hd ∈ s.heads, hd.branch = branchOf hd.id

theorem BranchesOf.remove
    {s : ChangesetHeads}
    (hs : BranchesOf branchOf s)
    (cs : HgChangesetId) :
    BranchesOf branchOf (s.remove cs) :=
  fun hd hd' => hs hd (mem_remove.mp hd').1

/-- When heads carry their changesets' branches, the assertion of the loop holds, and a
parent is dropped exactly when it is on the branch. -/
theorem dropParent_of_branchesOf
    {s : ChangesetHeads} {p : HgChangesetId}
    (hs : BranchesOf branchOf s) :
    dropParent branch s (p, branchOf p) = .ok (if branchOf p = branch then s.remove p else s) := by
  unfold dropParent
  by_cases hb : branchOf p = branch
  · simp only [hb, if_true]
    cases hg : s.get p with
    | none => rw [remove_of_get_eq_none hg]
    | some hd =>
        obtain ⟨hm, rfl⟩ := get_eq_some hg
        simp [hs hd hm, hb]
  · simp [hb]

/-- The loop over parents drops the heads among them that are on the branch. -/
theorem foldlM_dropParent_of_branchesOf
    (branch : Bytes) :
    ∀ (ps : List HgChangesetId) {s : ChangesetHeads}, BranchesOf branchOf s →
      ∃ s', (ps.map fun p => (p, branchOf p)).foldlM (dropParent branch) s = .ok s' ∧
        s'.generation = s.generation ∧
        ∀ hd, hd ∈ s'.heads ↔ hd ∈ s.heads ∧ (hd.id ∈ ps → branchOf hd.id ≠ branch)
  | [], s, _ => ⟨s, rfl, rfl, by simp⟩
  | p :: ps, s, hs => by
      have hs₁ : BranchesOf branchOf (if branchOf p = branch then s.remove p else s) := by
        split
        · exact hs.remove p
        · exact hs
      obtain ⟨s', hf, hgen, hmem⟩ := foldlM_dropParent_of_branchesOf branch ps hs₁
      refine ⟨s', ?_, ?_, fun hd => ?_⟩
      · rw [List.map_cons, List.foldlM_cons, dropParent_of_branchesOf hs, ok_bind, hf]
      · rw [hgen]
        split <;> rfl
      · have hp : (hd.id = p → branchOf hd.id ≠ branch) ↔ (branchOf p = branch → hd.id ≠ p) :=
          ⟨fun h hb he => h he (he ▸ hb), fun h he hb => h (he ▸ hb) he⟩
        rw [hmem, List.mem_cons, or_imp, hp]
        split <;> simp only [mem_remove, and_assoc, true_implies, false_implies, true_and, *]

end Consistent

end ChangesetHeads

theorem not_mem_branch
    {blob b : Bytes} {m : GitChangesetMetadata}
    (hm : RawGitChangesetMetadata.parse blob = some m)
    (hb : m.branch = .ok b) :
    (10 : UInt8) ∉ b := by
  unfold GitChangesetMetadata.branch GitChangesetMetadata.extraMap at hb
  cases hx : m.extra with
  | none =>
      rw [hx] at hb
      cases hb
      decide
  | some x =>
      rw [hx] at hb
      cases he : ChangesetExtra.from x with
      | error _ => simp [he, Option.mapM, Except.map] at hb
      | ok e => 
          simp [he, Option.mapM, Except.map] at hb
          subst hb
          cases hv : e.get (ascii "branch") with
          | none => decide
          | some v =>
              obtain ⟨p, hp, rfl⟩ := ChangesetExtra.mem_of_get hv
              exact fun h10 => RawGitChangesetMetadata.not_mem_extra_of_parse hm hx
                (ChangesetExtra.mem_of_from he hp (.inr h10))

@[simp] theorem unwrap_eq_ok
    {α : Type} {o : Option α} {a : α} :
    unwrap o = .ok a ↔ o = some a := by
  cases o <;> simp [unwrap]

/-- The branch `add_changeset_head` reads holds no `\n`. -/
theorem not_mem_addReads
    {h : Host} {cs : HgChangesetId} {oid : GitObjectId} {b : Bytes} {c : Commit}
    (hr : addReads h cs oid = .ok (b, c)) :
    (10 : UInt8) ∉ b := by
  simp only [addReads, bind_eq_ok] at hr
  obtain ⟨blob, -, m, hm, hr⟩ := hr
  split at hr
  · cases hr
  · simp only [pure_bind, bind_eq_ok] at hr
    obtain ⟨b', hb, cid, -, commit, -, hr⟩ := hr
    cases hr
    exact not_mem_branch (unwrap_eq_ok.mp hm) hb

section AddChangesetHead

variable {h : Host} {s s' : ChangesetHeads} {cs : HgChangesetId} {oid : GitObjectId}

/-- Every successful `add_changeset_head` removes the changeset (null metadata), or makes
its reads, drops parents in its loop and inserts the changeset. -/
theorem addChangesetHead_cases
    (hadd : addChangesetHead h s cs oid = .ok s') :
    (oid = ObjectId.null ∧ s' = s.remove cs) ∨
      ∃ b c infos s₁, addReads h cs oid = .ok (b, c) ∧ c.parents.mapM (parentInfo h) = .ok infos ∧
        infos.foldlM (ChangesetHeads.dropParent b) s = .ok s₁ ∧ s' = s₁.insert cs b := by
  unfold addChangesetHead at hadd
  split at hadd
  · exact .inl ⟨‹_›, (Except.ok.inj hadd).symm⟩
  · obtain ⟨⟨b, c⟩, hr, hadd⟩ := bind_eq_ok.mp hadd
    obtain ⟨s₁, hf, hs'⟩ := bind_eq_ok.mp hadd
    obtain ⟨infos, hinfos, hfold⟩ := mapM_of_foldlM_bind hf
    exact .inr ⟨b, c, infos, s₁, hr, hinfos, hfold, (Except.ok.inj hs').symm⟩

/-- With all its reads successful, `add_changeset_head` is the loop over what it read. -/
theorem addChangesetHead_of_addInfo
    {b : Bytes} {infos : List (HgChangesetId × Bytes)}
    (hoid : oid ≠ ObjectId.null)
    (hinfo : addInfo h cs oid = .ok (b, infos)) :
    addChangesetHead h s cs oid =
      (infos.foldlM (ChangesetHeads.dropParent b) s).map (·.insert cs b) := by
  obtain ⟨⟨b', c⟩, hr, hinfo⟩ := bind_eq_ok.mp hinfo
  obtain ⟨infos', hinfos, hinfo⟩ := bind_eq_ok.mp hinfo
  cases hinfo
  rw [addChangesetHead, if_neg hoid, hr, ok_bind]
  simp only [foldlM_bind_of_mapM s hinfos]
  cases infos.foldlM (ChangesetHeads.dropParent b) s <;> rfl

end AddChangesetHead

end GitCinnabar
