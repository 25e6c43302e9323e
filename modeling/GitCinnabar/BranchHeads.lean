import GitCinnabar.Ordinals

/-!
# git-cinnabar: the head set holds the branch heads

Mercurial's branch heads of a set of changesets are those of them that no changeset of
the set has as a parent on the same branch.  `add_changeset_head` keeps them
incrementally: it inserts the changeset it is given and drops those of its parents that
are heads on its branch.

**Model.**  The changeset graph is given by two functions, `parents` and `branch`, that
the host agrees with: the metadata of each changeset added names it and its branch, and
its commit's parents are the commits of its parents, whose metadata names their branch.
The changesets are added in a topological order, each once.

**Results.**
* `addChangesetHead_branchHeads`: adding a changeset all of whose parents were added before
  it, and which none of them has as a parent, keeps the head set the set of branch heads.
* `foldlM_addChangesetHead_branchHeads`: over every such sequence of additions, starting
  from no heads, the head set is the set of branch heads of the changesets added.
-/

namespace GitCinnabar

namespace ChangesetHeads

section BranchHeads

variable {h : Host} {parents : HgChangesetId → List HgChangesetId} {branch : HgChangesetId → Bytes}

/-- The branch heads of `added`: the changesets of it that none of it has as a parent on
the same branch. -/
def IsBranchHead (parents : HgChangesetId → List HgChangesetId) (branch : HgChangesetId → Bytes)
    (added : List HgChangesetId) (x : HgChangesetId) : Prop :=
  x ∈ added ∧ ∀ y ∈ added, x ∈ parents y → branch y ≠ branch x

/-- A head set of the branch heads of `added`, each with the branch of its changeset. -/
def HoldsBranchHeads (parents : HgChangesetId → List HgChangesetId)
    (branch : HgChangesetId → Bytes) (added : List HgChangesetId) (s : ChangesetHeads) : Prop :=
  BranchesOf branch s ∧ ∀ x, x ∈ s.heads.map (·.id) ↔ IsBranchHead parents branch added x

/-- Adding a changeset whose parents were all added before it, and which none of them has
as a parent, keeps the head set the set of branch heads. -/
theorem addChangesetHead_branchHeads
    {s : ChangesetHeads} {added : List HgChangesetId} {cs : HgChangesetId} {oid : GitObjectId}
    (hs : HoldsBranchHeads parents branch added s)
    (hoid : oid ≠ ObjectId.null)
    (hinfo : addInfo h cs oid = .ok (branch cs, (parents cs).map fun p => (p, branch p)))
    (hparents : ∀ p ∈ parents cs, p ∈ added)
    (hchild : ∀ y ∈ added, cs ∉ parents y)
    (hnew : cs ∉ added) :
    ∃ s', addChangesetHead h s cs oid = .ok s' ∧
      HoldsBranchHeads parents branch (added ++ [cs]) s' := by
  obtain ⟨s₁, hfold, -, hmem⟩ := foldlM_dropParent_of_branchesOf (branch cs) (parents cs) hs.1
  refine ⟨s₁.insert cs (branch cs), by rw [addChangesetHead_of_addInfo hoid hinfo, hfold]; rfl,
    fun hd h => ?_, fun x => ?_⟩
  · rcases mem_insert.mp h with rfl | ⟨h, -⟩
    · rfl
    · exact hs.1 hd ((hmem hd).mp h).1
  · have hids : x ∈ s₁.heads.map (·.id) ↔
        x ∈ s.heads.map (·.id) ∧ (x ∈ parents cs → branch x ≠ branch cs) := by
      simp only [List.mem_map, hmem]
      exact ⟨fun ⟨hd, ⟨hm, hp⟩, he⟩ => ⟨⟨hd, hm, he⟩, he ▸ hp⟩,
        fun ⟨⟨hd, hm, he⟩, hp⟩ => ⟨hd, ⟨hm, he ▸ hp⟩, he⟩⟩
    rw [mem_ids_insert, hids, hs.2 x]
    simp only [IsBranchHead, List.mem_append, List.mem_singleton, or_imp, forall_and, forall_eq]
    by_cases hx : x = cs
    · subst hx
      exact ⟨fun _ => ⟨.inr rfl, fun y hy hp => absurd hp (hchild y hy),
        fun hp => absurd (hparents _ hp) hnew⟩, fun _ => .inl rfl⟩
    · simp only [hx, false_or, or_false]
      exact ⟨fun ⟨⟨⟨hxa, hall⟩, hp⟩, _⟩ => ⟨hxa, hall, fun h' => (hp h').symm⟩,
        fun ⟨hxa, hall, hp⟩ => ⟨⟨⟨hxa, hall⟩, fun h' => (hp h').symm⟩, hx⟩⟩

/-- Over a topological order of additions, each changeset once, the head set is the set
of branch heads of the changesets added. -/
theorem foldlM_addChangesetHead_branchHeads
    (adds : List (HgChangesetId × GitObjectId))
    (hinfo : ∀ a ∈ adds, a.2 ≠ ObjectId.null ∧
      addInfo h a.1 a.2 = .ok (branch a.1, (parents a.1).map fun p => (p, branch p)))
    (hnodup : (adds.map Prod.fst).Nodup)
    (htopo : ∀ pre a post, adds = pre ++ a :: post → ∀ p ∈ parents a.1, p ∈ pre.map Prod.fst) :
    ∃ s, adds.foldlM (fun s a => addChangesetHead h s a.1 a.2) empty = .ok s ∧
      HoldsBranchHeads parents branch (adds.map Prod.fst) s := by
  induction adds using List.reverseRecOn with
  | nil => exact ⟨empty, rfl, fun hd h => absurd h (List.not_mem_nil hd), by simp [IsBranchHead, empty]⟩
  | append_singleton pre a ih =>
      rw [List.map_append, List.nodup_append] at hnodup
      obtain ⟨s, hfold, hs⟩ := ih (fun b hb => hinfo b (List.mem_append_left _ hb)) hnodup.1
        fun pre' b post hpre => htopo pre' b (post ++ [a]) (by simp [hpre])
      have hnew : a.1 ∉ pre.map Prod.fst := fun h => hnodup.2.2 h (List.mem_singleton_self _)
      have hparents : ∀ p ∈ parents a.1, p ∈ pre.map Prod.fst := htopo pre a [] rfl
      have hchild : ∀ y ∈ pre.map Prod.fst, a.1 ∉ parents y := by
        intro y hy hp
        obtain ⟨b, hb, rfl⟩ := List.mem_map.mp hy
        obtain ⟨pre', post, rfl⟩ := List.append_of_mem hb
        exact hnew (List.map_append _ _ _ ▸
          List.mem_append_left _ (htopo pre' b (post ++ [a]) (by simp) _ hp))
      have ha := hinfo a (List.mem_append_right _ (List.mem_singleton_self _))
      obtain ⟨s', hadd, hs'⟩ := addChangesetHead_branchHeads hs ha.1 ha.2 hparents hchild hnew
      refine ⟨s', ?_, by simpa using hs'⟩
      rw [List.foldlM_append, hfold, ok_bind, List.foldlM_cons, hadd]
      rfl

end BranchHeads

theorem foldlM_addChangesetHead_branchHeads_two :
    let adds := [(headId, headMetadata), (childId, childMetadata)]
    let parents := fun cs => if cs = childId then [headId] else []
    let branch := fun _ : HgChangesetId => [0xFF]
    (∀ a ∈ adds, a.2 ≠ ObjectId.null ∧
      addInfo latin1Host a.1 a.2 = .ok (branch a.1, (parents a.1).map fun p => (p, branch p))) ∧
    (adds.map Prod.fst).Nodup ∧
    (∀ pre a post, adds = pre ++ a :: post → ∀ p ∈ parents a.1, p ∈ pre.map Prod.fst) ∧
    ∃ s, adds.foldlM (fun s a => addChangesetHead latin1Host s a.1 a.2) empty = .ok s ∧
      HoldsBranchHeads parents branch (adds.map Prod.fst) s := by
  intro adds parents branch
  have hinfo : ∀ a ∈ adds, a.2 ≠ ObjectId.null ∧
      addInfo latin1Host a.1 a.2 = .ok (branch a.1, (parents a.1).map fun p => (p, branch p)) := by
    simp only [adds, List.forall_mem_cons, List.forall_mem_nil]
    exact ⟨⟨by decide, rfl⟩, ⟨by decide, rfl⟩, fun _ h => absurd h (List.not_mem_nil _)⟩
  have htopo : ∀ pre a post, adds = pre ++ a :: post → ∀ p ∈ parents a.1, p ∈ pre.map Prod.fst := by
    rintro (_ | ⟨b, _ | ⟨c, pre⟩⟩) a post h <;>
      simp only [adds, List.nil_append, List.cons_append, List.cons.injEq] at h
    · obtain ⟨rfl, -⟩ := h
      decide
    · obtain ⟨rfl, rfl, -⟩ := h
      decide
    · simp at h
  exact ⟨hinfo, by decide, htopo, foldlM_addChangesetHead_branchHeads adds hinfo (by decide) htopo⟩

end ChangesetHeads

end GitCinnabar
