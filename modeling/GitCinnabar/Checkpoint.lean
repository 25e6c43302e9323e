import GitCinnabar.Changeset
import GitCinnabar.Heads

/-!
# git-cinnabar: the checkpoint of the heads

`changeset_heads` prints the heads, `store_changesets_metadata` writes them into a
checkpoint commit, and `ChangesetHeads::new`, behind `reset_changeset_heads`, reads them
back from the message of `refs/cinnabar/metadata^1`.  The first two list the heads in the
order of `(ordinal, id, branch)`, one line `id SP branch` each; the reader numbers them by
line.

**Model.**  A branch is written with bstr's `Display`, which is `displayBytes`:
`String::from_utf8_lossy`, a decoder over the bytes that writes U+FFFD for each maximal
ill-formed subsequence.  Git's parse of a commit is not part of the sources; of it the
reset reads the message only, `commitMessage`: what follows the first blank line.

**Results.**
* `commitMessage_store`: the message of the checkpoint is the heads' lines joined by `\n`.
* `fromMessage_checkpointMessage`: reading the message back gives the heads' ids in their
  order, numbered by line, each with its branch as `Display` wrote it, less a final `\r`
  on every line but the last.
* `new_store`: for branches that are valid UTF-8 and do not end in `\r`, a reset onto the
  checkpoint gives the same heads in the same order, which `changeset_heads` prints alike.
-/

namespace GitCinnabar

open RawHgChangeset (filesBlock filesBlock_cons splitFirstStr_filesBlock_append append_filesBlock
  not_mem_display_nl)

/-! ## Display of a byte string -/

/-- U+FFFD REPLACEMENT CHARACTER in UTF-8. -/
def replacement : Bytes := [0xEF, 0xBF, 0xBD]

/-- How a byte that is not ASCII starts a UTF-8 sequence: the number of continuation
bytes it needs and the range its first continuation byte lies in (Unicode, Table 3-7);
`none` for a byte that starts no sequence. -/
def utf8Lead (b : UInt8) : Option (Nat × UInt8 × UInt8) :=
  if b < 0xC2 then none
  else if b ≤ 0xDF then some (1, 0x80, 0xBF)
  else if b = 0xE0 then some (2, 0xA0, 0xBF)
  else if b = 0xED then some (2, 0x80, 0x9F)
  else if b ≤ 0xEF then some (2, 0x80, 0xBF)
  else if b = 0xF0 then some (3, 0x90, 0xBF)
  else if b ≤ 0xF3 then some (3, 0x80, 0xBF)
  else if b = 0xF4 then some (3, 0x80, 0x8F)
  else none

/-- An incomplete UTF-8 sequence: the bytes read, how many more it needs and the range of
the next one. -/
abbrev Utf8Pending := Option (Bytes × Nat × UInt8 × UInt8)

/-- A byte read where a sequence may start: what is written, and what is pending. -/
def lossyStart (b : UInt8) : Bytes × Utf8Pending :=
  if b < 0x80 then ([b], none)
  else match utf8Lead b with
    | none => (replacement, none)
    | some (n, lo, hi) => ([], some ([b], n, lo, hi))

/-- The decoder of `from_utf8_lossy` with an incomplete sequence pending. -/
def displayGo : Utf8Pending → Bytes → Bytes
  | none, [] => []
  | some _, [] => replacement
  | none, b :: s => (lossyStart b).1 ++ displayGo (lossyStart b).2 s
  | some (p, n, lo, hi), b :: s =>
      if lo ≤ b ∧ b ≤ hi then
        if n = 1 then p ++ [b] ++ displayGo none s
        else displayGo (some (p ++ [b], n - 1, 0x80, 0xBF)) s
      else replacement ++ (lossyStart b).1 ++ displayGo (lossyStart b).2 s

/-- bstr's `Display` of a byte string: valid UTF-8 as it is, U+FFFD for each maximal
ill-formed subsequence. -/
def displayBytes (s : Bytes) : Bytes := displayGo none s

/-- The bytes pending in a decoder state. -/
def Utf8Pending.bytes : Utf8Pending → Bytes
  | none => []
  | some (p, _) => p

/-- A byte that is not one of U+FFFD's is written by `lossyStart` only as itself. -/
theorem not_mem_lossyStart
    {b c : UInt8}
    (hc : c ∉ replacement)
    (hb : c ≠ b) :
    c ∉ (lossyStart b).1 ∧ c ∉ (lossyStart b).2.bytes := by
  unfold lossyStart
  split
  · simp [Utf8Pending.bytes, hb]
  · split <;> simp [Utf8Pending.bytes, hb, hc]

/-- `Display` writes the bytes it reads and U+FFFD, nothing else. -/
theorem not_mem_displayGo
    {c : UInt8} {st : Utf8Pending} {s : Bytes}
    (hc : c ∉ replacement)
    (hst : c ∉ st.bytes)
    (hs : c ∉ s) :
    c ∉ displayGo st s := by
  induction st, s using displayGo.induct with
  | case1 => simp [displayGo]
  | case2 => exact hc
  | case3 b s ih =>
      rw [List.mem_cons, not_or] at hs
      have hb := not_mem_lossyStart hc hs.1
      simp only [displayGo, List.mem_append, not_or]
      exact ⟨hb.1, ih hb.2 hs.2⟩
  | case4 p lo hi b s hr ih =>
      rw [List.mem_cons, not_or] at hs
      simp only [displayGo, hr, and_self, if_true, List.mem_append, List.mem_singleton, not_or]
      exact ⟨⟨hst, hs.1⟩, ih (by simp [Utf8Pending.bytes]) hs.2⟩
  | case5 p n lo hi b s hr hn ih =>
      rw [List.mem_cons, not_or] at hs
      simp only [displayGo, hr, hn, and_self, if_true, if_false]
      exact ih (by simpa [Utf8Pending.bytes] using ⟨hst, hs.1⟩) hs.2
  | case6 p n lo hi b s hr ih =>
      rw [List.mem_cons, not_or] at hs
      have hb := not_mem_lossyStart hc hs.1
      simp only [displayGo, hr, if_false, List.mem_append, not_or]
      exact ⟨⟨hc, hb.1⟩, ih hb.2 hs.2⟩

/-- An ASCII byte that a string does not hold is not in its `Display` either. -/
theorem not_mem_displayBytes
    {c : UInt8} {s : Bytes}
    (hc : c < 0x80)
    (h : c ∉ s) :
    c ∉ displayBytes s := by
  refine not_mem_displayGo (fun hr => ?_) (by simp [Utf8Pending.bytes]) h
  simp only [replacement, List.mem_cons, List.mem_singleton, List.not_mem_nil, or_false] at hr
  rcases hr with rfl | rfl | rfl <;> simp_all

/-! ## Listing the heads -/

/-- Rust's order on the tuples `(ordinal, id, branch)`. -/
def headLt (a b : Head) : Bool :=
  lexLt (fun m n : Nat => decide (m < n)) (lexLt bytesLt bytesLt)
    (a.ordinal, a.id.bytes, a.branch) (b.ordinal, b.id.bytes, b.branch)

/-- Rust's order on the pairs `(ordinal, id)`. -/
def headIdLt (a b : Head) : Bool :=
  lexLt (fun m n : Nat => decide (m < n)) bytesLt (a.ordinal, a.id.bytes) (b.ordinal, b.id.bytes)

/-- `a ≤ b` on `(ordinal, id, branch)`. -/
def HeadLe (a b : Head) : Prop := headLt b a = false

/-- `a ≤ b` on `(ordinal, id)`. -/
def HeadIdLe (a b : Head) : Prop := headIdLt b a = false

instance : DecidableRel HeadLe := fun a b => inferInstanceAs (Decidable (headLt b a = false))

instance : DecidableRel HeadIdLe := fun a b => inferInstanceAs (Decidable (headIdLt b a = false))

theorem headLt_strictOrd :
    StrictOrd headLt :=
  (natLt_strictOrd.lex (bytesLt_strictOrd.lex bytesLt_strictOrd)).comap
    (f := fun hd : Head => (hd.ordinal, hd.id.bytes, hd.branch)) fun a b h => by
      obtain ⟨ida, ba, oa⟩ := a
      obtain ⟨idb, bb, ob⟩ := b
      simp only [Prod.mk.injEq] at h
      obtain ⟨rfl, hid, rfl⟩ := h
      rw [ObjectId.ext hid]

instance : IsTotal Head HeadLe :=
  ⟨headLt_strictOrd.le_total⟩

instance : IsTrans Head HeadLe :=
  ⟨fun _ _ _ => headLt_strictOrd.le_trans⟩

instance : IsAntisymm Head HeadLe :=
  ⟨fun _ _ => headLt_strictOrd.le_antisymm⟩

instance : IsTotal Head HeadIdLe :=
  ⟨fun a b => (natLt_strictOrd.lex bytesLt_strictOrd).le_total (a.ordinal, a.id.bytes) (b.ordinal, b.id.bytes)⟩

instance : IsTrans Head HeadIdLe :=
  ⟨fun _ _ _ => (natLt_strictOrd.lex bytesLt_strictOrd).le_trans⟩

theorem ordinal_le_of_headIdLe
    {a b : Head}
    (h : HeadIdLe a b) :
    a.ordinal ≤ b.ordinal := by
  simp only [HeadIdLe, headIdLt, lexLt, Bool.or_eq_false_iff, decide_eq_false_iff_not] at h
  omega

/-- `writeln!(_, "{} {}", h, b)` without its newline: a head's line. -/
def headLine (hd : Head) : Bytes := hd.id.display ++ 32 :: displayBytes hd.branch

namespace ChangesetHeads

/-- The heads sorted by `(ordinal, id, branch)`. -/
def sorted (s : ChangesetHeads) : List Head := s.heads.insertionSort HeadLe

/-- `changeset_heads`: what it sends to its output. -/
def changesetHeads (s : ChangesetHeads) : Bytes := s.sorted.flatMap fun hd => headLine hd ++ [10]

/-- The message of the checkpoint commit: the heads' lines joined with `\n`. -/
def checkpointMessage (s : ChangesetHeads) : Bytes := joinWith 10 (s.sorted.map headLine)

end ChangesetHeads

/-- `store_changesets_metadata`: the text of the checkpoint commit it writes, with the
bundle blob in its tree if there is one. -/
def storeChangesetsMetadata (h : Host) (s : ChangesetHeads) (blob : Option GitObjectId) :
    Except String Bytes := do
  let tree := match blob with
    | some b => ascii "100644 bundle\x00" ++ b.bytes
    | none => []
  let parents ← (s.heads.insertionSort HeadIdLe).mapM fun hd => unwrap (h.hg2git hd.id)
  pure (ascii "tree " ++ (h.treeId tree).display ++ [10] ++
    parents.flatMap (fun p => ascii "parent " ++ p.display ++ [10]) ++
    ascii "author  <cinnabar@git> 0 +0000\n" ++ ascii "committer  <cinnabar@git> 0 +0000\n" ++
    s.sorted.flatMap fun hd => 10 :: headLine hd)

/-! ## The checkpoint commit -/

/-- Git's parse of a commit's text, as far as `ChangesetHeads::new` reads it: the message,
what follows the first blank line, nothing when there is none. -/
def commitMessage (text : Bytes) : Bytes :=
  match splitFirstStr [10, 10] text with
  | some (_, message) => message
  | none => []

/-- Lines each after a `\n`, then a `\n`: each line followed by `\n`, after a `\n`. -/
theorem filesBlock_append_nl
    (r : Bytes) :
    ∀ ls : List Bytes, filesBlock ls ++ 10 :: r = 10 :: (ls.flatMap (· ++ [10]) ++ r)
  | [] => rfl
  | l :: ls => by simp [filesBlock_append_nl r ls]

/-- The message of the checkpoint commit is the heads' lines, joined by `\n`. -/
theorem commitMessage_store
    {h : Host} {s : ChangesetHeads} {blob : Option GitObjectId} {t : Bytes}
    (ht : storeChangesetsMetadata h s blob = .ok t) :
    commitMessage t = s.checkpointMessage := by
  obtain ⟨parents, -, ht⟩ := bind_eq_ok.mp ht
  cases ht
  have hauthor : ascii "author  <cinnabar@git> 0 +0000\n" =
      ascii "author  <cinnabar@git> 0 +0000" ++ [10] := rfl
  have hcommitter : ascii "committer  <cinnabar@git> 0 +0000\n" =
      ascii "committer  <cinnabar@git> 0 +0000" ++ [10] := rfl
  have htree : ∀ tree : GitObjectId, (10 : UInt8) ∉ ascii "tree " ++ tree.display := fun tree => by
    simp only [List.mem_append, not_or]
    exact ⟨by decide, not_mem_display_nl tree⟩
  have hlines : ∀ f ∈ parents.map (ascii "parent " ++ ·.display) ++
      [ascii "author  <cinnabar@git> 0 +0000", ascii "committer  <cinnabar@git> 0 +0000"],
      f ≠ [] ∧ (10 : UInt8) ∉ f := by
    simp only [List.mem_append, List.mem_map, List.mem_cons, List.mem_singleton,
      List.not_mem_nil, or_false]
    rintro f (⟨p, -, rfl⟩ | rfl | rfl)
    · exact ⟨by simp [ascii], by simpa using ⟨by decide, not_mem_display_nl p⟩⟩
    · decide
    · decide
  generalize (h.treeId _) = tree
  generalize hrest : s.sorted.flatMap (fun hd => 10 :: headLine hd) = rest
  have htext : ascii "tree " ++ tree.display ++ [10] ++
      parents.flatMap (fun p => ascii "parent " ++ ObjectId.display p ++ [10]) ++
      ascii "author  <cinnabar@git> 0 +0000\n" ++ ascii "committer  <cinnabar@git> 0 +0000\n" ++
      rest = (ascii "tree " ++ tree.display) ++ (filesBlock (parents.map (ascii "parent " ++ ·.display) ++
        [ascii "author  <cinnabar@git> 0 +0000", ascii "committer  <cinnabar@git> 0 +0000"]) ++
        10 :: rest) := by
    rw [filesBlock_append_nl]
    simp [hauthor, hcommitter, List.flatMap_map]
  rw [htext, commitMessage, splitFirstStr_append_of_not_mem _ (htree tree),
    splitFirstStr_filesBlock_append _ hlines]
  subst hrest
  rcases hs : s.sorted with _ | ⟨hd, hds⟩
  · simp [hs, ChangesetHeads.checkpointMessage, splitFirstStr]
  · simp [hs, ChangesetHeads.checkpointMessage, ← append_filesBlock, filesBlock, List.flatMap_map]

/-! ## Reading the heads back -/

/-- One line of the checkpoint's message, at position `n`: `id SP branch`. -/
def readHeadLine (n : Nat) (l : Bytes) : Except String Head :=
  match splitnExact 32 2 l with
  | some [hx, b] => (unwrap (ObjectId.fromBytes hx)).map fun id => ⟨id, b, n⟩
  | _ => .error ChangesetExtra.unwrapNone

theorem keysAscending_foldl_insertBy
    {m : List Head}
    (hm : KeysAscending Head.key m) :
    ∀ (l : List Head), KeysAscending Head.key (l.foldl (fun m x => insertBy Head.key x m) m)
  | [] => hm
  | x :: l => by
      rw [List.foldl_cons]
      exact keysAscending_foldl_insertBy (keysAscending_insertBy x hm) l

namespace ChangesetHeads

/-- `collect::<BTreeMap<_, _>>()` of the heads read, a later one replacing an earlier one
with its id, and `generation: heads.len()`. -/
def ofList (l : List Head) : ChangesetHeads :=
  let heads := l.foldl (fun m x => insertBy Head.key x m) []
  ⟨heads.length, heads, keysAscending_foldl_insertBy List.Pairwise.nil l⟩

/-- `ChangesetHeads::new` on the message of the checkpoint commit. -/
def fromMessage (message : Bytes) : Except String ChangesetHeads :=
  ((lines message).enum.mapM fun p => readHeadLine p.1 p.2).map ofList

/-- `ChangesetHeads::new`: the heads the parent of `refs/cinnabar/metadata` lists, none if
there is no such commit. -/
def new (h : Host) : Except String ChangesetHeads :=
  match h.oidCommittish (ascii "refs/cinnabar/metadata^1") with
  | none => .ok empty
  | some cid => do
      let c ← unwrap (h.commit cid)
      fromMessage c.body

end ChangesetHeads

/-! ## A reset onto the checkpoint -/

/-- A head's line, read back at position `n`: its id, its branch as `Display` wrote it
(less a final `\r` perhaps) and `n`. -/
theorem readHeadLine_of_readsBack
    {hd : Head} {l : Bytes}
    (n : Nat)
    (h : ReadsBack (headLine hd) l) :
    ∃ d, ReadsBack (displayBytes hd.branch) d ∧ readHeadLine n l = .ok ⟨hd.id, d, n⟩ := by
  obtain ⟨d, hd', rfl⟩ := h.append_cons (by decide)
  refine ⟨d, hd', ?_⟩
  rw [readHeadLine, splitnExact_two_append _ _ (ObjectId.not_mem_display _ (by decide))]
  simp [unwrap, Except.map]

/-- The heads read from the lines of heads, numbered from `k`. -/
theorem mapM_readHeadLine :
    ∀ {hds : List Head} {ls : List Bytes} (k : Nat),
      List.Forall₂ (fun hd l => ReadsBack (headLine hd) l) hds ls →
      ∃ l, (ls.enumFrom k).mapM (fun p => readHeadLine p.1 p.2) = .ok l ∧
        l.map (·.ordinal) = List.range' k hds.length ∧
        List.Forall₂ (fun hd hd' => hd'.id = hd.id ∧ ReadsBack (displayBytes hd.branch) hd'.branch)
          hds l
  | [], [], _, .nil => ⟨[], rfl, rfl, .nil⟩
  | hd :: _, _ :: _, k, .cons h hs => by
      obtain ⟨d, hd', hr⟩ := readHeadLine_of_readsBack k h
      obtain ⟨l', hm, hord, hf⟩ := mapM_readHeadLine (k + 1) hs
      refine ⟨⟨hd.id, d, k⟩ :: l', ?_, ?_, .cons ⟨rfl, hd'⟩ hf⟩
      · rw [List.enumFrom_cons, List.mapM_cons, hr, ok_bind, hm]
        rfl
      · simp [hord, List.range'_succ]

/-- Inserting heads with distinct ids, none of them in the map yet, adds them all. -/
theorem foldl_insertBy_perm :
    ∀ {l m : List Head}, KeysAscending Head.key m → (l.map Head.key).Nodup →
      (∀ x ∈ l, ∀ y ∈ m, x.key ≠ y.key) →
      (l.foldl (fun m x => insertBy Head.key x m) m).Perm (l ++ m)
  | [], _, _, _, _ => List.Perm.refl _
  | x :: l, m, hm, hl, hlm => by
      simp only [List.map_cons, List.nodup_cons, List.mem_map, not_exists, not_and] at hl
      have hx : eraseBy Head.key x.key m = m :=
        eraseBy_of_forall_ne fun y hy he => hlm x (List.mem_cons_self _ _) y hy he.symm
      have ih := foldl_insertBy_perm (l := l) (keysAscending_insertBy x hm) hl.2 fun z hz y hy => by
        rcases mem_insertBy_of_mem hy with rfl | hy
        · exact fun he => hl.1 z hz he
        · exact hlm z (List.mem_cons_of_mem _ hz) y hy
      rw [List.foldl_cons]
      refine ih.trans ((((insertBy_perm x hm).trans ?_).append_left l).trans List.perm_middle)
      rw [hx]

/-- Lists related pointwise by a relation under which `f` and `g` agree have the same
images. -/
theorem map_eq_of_forall₂
    {α β γ : Type} {f : α → γ} {g : β → γ} {R : α → β → Prop} {as : List α} {bs : List β}
    (hR : ∀ a b, R a b → g b = f a)
    (h : List.Forall₂ R as bs) :
    bs.map g = as.map f := by
  have := List.forall₂_map_right_iff.mpr (List.forall₂_map_left_iff.mpr
    (h.imp fun a b h => (hR a b h).symm))
  rw [List.forall₂_eq_eq_eq] at this
  exact this.symm

namespace ChangesetHeads

/-- Heads with distinct ids are all in the map `ChangesetHeads::new` collects them into. -/
theorem ofList_perm
    {l : List Head}
    (hl : (l.map Head.key).Nodup) :
    (ofList l).heads.Perm l := by
  simpa using foldl_insertBy_perm (m := []) List.Pairwise.nil hl (by simp)

theorem ofList_generation
    {l : List Head}
    (hl : (l.map Head.key).Nodup) :
    (ofList l).generation = l.length :=
  (ofList_perm hl).length_eq

/-- The ids of a map are distinct. -/
theorem nodup_keys
    (s : ChangesetHeads) :
    (s.heads.map Head.key).Nodup :=
  (List.pairwise_map.mpr s.ascending : (s.heads.map Head.key).Pairwise fun a b => bytesLt a b).imp
    fun h he => by simp [he] at h

theorem sorted_perm
    (s : ChangesetHeads) :
    s.sorted.Perm s.heads :=
  List.perm_insertionSort _ _

/-- The heads a reset reads from a checkpoint: the heads' ids in their order, numbered by
line, each with its branch as `Display` wrote it, less a final `\r` perhaps. -/
theorem fromMessage_checkpointMessage
    {s : ChangesetHeads}
    (hs : ∀ hd ∈ s.heads, (10 : UInt8) ∉ hd.branch) :
    ∃ l, fromMessage s.checkpointMessage = .ok (ofList l) ∧
      l.map (·.ordinal) = List.range s.heads.length ∧
      List.Forall₂ (fun hd hd' => hd'.id = hd.id ∧ ReadsBack (displayBytes hd.branch) hd'.branch)
        s.sorted l := by
  rw [← s.sorted_perm.length_eq, List.range_eq_range', checkpointMessage]
  rcases hsort : s.sorted with _ | ⟨hd, hds⟩
  · exact ⟨[], rfl, rfl, .nil⟩
  · have hlines : ∀ x ∈ headLine hd :: hds.map headLine, x ≠ [] ∧ (10 : UInt8) ∉ x := by
      simp only [← List.map_cons, List.mem_map]
      rintro _ ⟨hd', hm, rfl⟩
      have hm : hd' ∈ s.heads := s.sorted_perm.subset (hsort ▸ hm)
      refine ⟨by simp [headLine], ?_⟩
      simp only [headLine, List.mem_append, List.mem_cons, not_or]
      exact ⟨not_mem_display_nl _, by decide, not_mem_displayBytes (by decide) (hs hd' hm)⟩
    have h₂ := lines_joinWith _ _ hlines
    rw [← List.map_cons, List.forall₂_map_left_iff] at h₂
    obtain ⟨l, hm, hord, hf⟩ := mapM_readHeadLine 0 h₂
    exact ⟨l, by rw [fromMessage, List.enum, hm]; rfl, hord, hf⟩

theorem headLe_of_ordinal_lt
    {a b : Head}
    (h : a.ordinal < b.ordinal) :
    HeadLe a b := by
  have h₁ : ¬b.ordinal < a.ordinal := by omega
  have h₂ : b.ordinal ≠ a.ordinal := by omega
  simp [HeadLe, headLt, lexLt, h₁, h₂]

/-- Heads with distinct ids, numbered in their order, are listed in that order. -/
theorem sorted_ofList
    {l : List Head}
    (hl : (l.map Head.key).Nodup)
    (hord : l.map (·.ordinal) = List.range l.length) :
    (ofList l).sorted = l := by
  have hlt : l.Pairwise fun a b => a.ordinal < b.ordinal :=
    List.pairwise_map.mp (hord ▸ List.pairwise_lt_range _)
  exact List.eq_of_perm_of_sorted ((ofList l).sorted_perm.trans (ofList_perm hl))
    (List.sorted_insertionSort _ _) (hlt.imp headLe_of_ordinal_lt)

/-- `changeset_heads` prints the ids and branches of the heads, in their order. -/
theorem changesetHeads_eq
    (s : ChangesetHeads) :
    s.changesetHeads = (s.sorted.map fun hd => (hd.id, hd.branch)).flatMap
      fun p => p.1.display ++ 32 :: displayBytes p.2 ++ [10] := by
  simp [changesetHeads, List.flatMap_map, headLine]

section Reset

variable {h h' : Host} {s : ChangesetHeads} {blob : Option GitObjectId} {t : Bytes}
  {cid : GitObjectId} {c : Commit}

/-- A reset onto the checkpoint of heads without `\n` in their branches: the heads' ids in
their order, numbered by line, with their branches as `Display` wrote them. -/
theorem new_store_eq
    (hs : ∀ hd ∈ s.heads, (10 : UInt8) ∉ hd.branch)
    (ht : storeChangesetsMetadata h s blob = .ok t)
    (hcid : h'.oidCommittish (ascii "refs/cinnabar/metadata^1") = some cid)
    (hc : h'.commit cid = some c)
    (hbody : c.body = commitMessage t) :
    ∃ l, new h' = .ok (ofList l) ∧ (ofList l).sorted = l ∧
      (ofList l).generation = s.heads.length ∧ l.map (·.ordinal) = List.range s.heads.length ∧
      List.Forall₂ (fun hd hd' => hd'.id = hd.id ∧ ReadsBack (displayBytes hd.branch) hd'.branch)
        s.sorted l := by
  obtain ⟨l, hm, hord, hf⟩ := fromMessage_checkpointMessage hs
  have hkeys : l.map Head.key = s.sorted.map Head.key :=
    map_eq_of_forall₂ (fun _ _ h => by simp [Head.key, h.1]) hf
  have hnodup : (l.map Head.key).Nodup := hkeys ▸ (s.sorted_perm.map _).nodup_iff.mpr s.nodup_keys
  have hlen : l.length = s.heads.length := by simpa using congrArg List.length hord
  refine ⟨l, ?_, sorted_ofList hnodup (hlen ▸ hord), hlen ▸ ofList_generation hnodup, hord, hf⟩
  rw [new, hcid]
  simp [unwrap, hc, hbody, commitMessage_store ht, hm]

/-- For branches that are valid UTF-8 and do not end in `\r`, a reset onto the checkpoint
gives the same ids with the same branches, in the same order, and `changeset_heads`
prints the same lines. -/
theorem new_store
    (hs : ∀ hd ∈ s.heads, (10 : UInt8) ∉ hd.branch ∧ displayBytes hd.branch = hd.branch ∧
      hd.branch.getLast? ≠ some 13)
    (ht : storeChangesetsMetadata h s blob = .ok t)
    (hcid : h'.oidCommittish (ascii "refs/cinnabar/metadata^1") = some cid)
    (hc : h'.commit cid = some c)
    (hbody : c.body = commitMessage t) :
    ∃ s', new h' = .ok s' ∧
      s'.sorted.map (fun hd => (hd.id, hd.branch)) = s.sorted.map (fun hd => (hd.id, hd.branch)) ∧
      s'.changesetHeads = s.changesetHeads := by
  obtain ⟨l, hnew, hsorted, -, -, hf⟩ := new_store_eq (fun hd h => (hs hd h).1) ht hcid hc hbody
  have hbranches : l.map (fun hd => (hd.id, hd.branch)) = s.sorted.map (fun hd => (hd.id, hd.branch)) :=
    map_eq_of_forall₂ (R := fun hd hd' => (10 ∉ hd.branch ∧ displayBytes hd.branch = hd.branch ∧
        hd.branch.getLast? ≠ some 13) ∧ hd'.id = hd.id ∧
        ReadsBack (displayBytes hd.branch) hd'.branch)
      (fun hd hd' ⟨hb, hid, hr⟩ => by rw [hid, hr.eq (by rw [hb.2.1]; exact hb.2.2), hb.2.1])
      ((List.forall₂_and_left _ _).mpr ⟨fun hd hm => hs hd (s.sorted_perm.subset hm), hf⟩)
  refine ⟨ofList l, hnew, by rw [hsorted, hbranches], ?_⟩
  rw [changesetHeads_eq, changesetHeads_eq, hsorted, hbranches]

end Reset

end ChangesetHeads

/-- The changeset of the fixed inputs below, and its child. -/
def headId : HgChangesetId := ⟨List.replicate 20 2, rfl⟩

def childId : HgChangesetId := ⟨List.replicate 20 3, rfl⟩

/-- Their commits and metadata blobs. -/
def headCommit : GitObjectId := ⟨List.replicate 20 5, rfl⟩

def headMetadata : GitObjectId := ⟨List.replicate 20 6, rfl⟩

def childCommit : GitObjectId := ⟨List.replicate 20 7, rfl⟩

def childMetadata : GitObjectId := ⟨List.replicate 20 8, rfl⟩

/-- The metadata blob of a changeset on the branch `\xFF`, a Latin-1 `ÿ`. -/
def latin1Blob (cs : HgChangesetId) : Bytes :=
  ascii "changeset " ++ cs.display ++ ascii "\nextra branch:" ++ [0xFF]

/-- A host with a changeset and its child, both on the branch `\xFF`. -/
def latin1Host : Host where
  blob o :=
    if o = headMetadata then some (latin1Blob headId)
    else if o = childMetadata then some (latin1Blob childId) else none
  git2hg o :=
    if o = headCommit then some headMetadata
    else if o = childCommit then some childMetadata else none
  hg2git cs :=
    if cs = headId then some headCommit
    else if cs = childId then some childCommit else none
  commit o :=
    if o = headCommit then some ⟨[], [], [], []⟩
    else if o = childCommit then some ⟨[headCommit], [], [], []⟩ else none
  replace o := o
  oidCommittish _ := none
  treeId _ := ObjectId.null
  sha1 _ := ObjectId.null
  textdiff _ _ := []
  hgAuthorship _ := ⟨[], [], []⟩
  hgCommitter _ := []
  gitAuthorship _ := []
  gitCommitter _ := []

/-- Two root changesets on the default branch, the one inserted first with the larger id,
their commits and their metadata blobs. -/
def rootFirstId : HgChangesetId := ⟨List.replicate 20 0xBB, rfl⟩

def rootSecondId : HgChangesetId := ⟨List.replicate 20 0xAA, rfl⟩

def rootFirstCommit : GitObjectId := ⟨List.replicate 20 0x11, rfl⟩

def rootSecondCommit : GitObjectId := ⟨List.replicate 20 0x12, rfl⟩

def rootFirstMetadata : GitObjectId := ⟨List.replicate 20 0x21, rfl⟩

def rootSecondMetadata : GitObjectId := ⟨List.replicate 20 0x22, rfl⟩

/-- A host with the two root changesets. -/
def rootsHost : Host :=
  { latin1Host with
    blob := fun o =>
      if o = rootFirstMetadata then some (ascii "changeset " ++ rootFirstId.display)
      else if o = rootSecondMetadata then some (ascii "changeset " ++ rootSecondId.display)
      else none
    hg2git := fun cs =>
      if cs = rootFirstId then some rootFirstCommit
      else if cs = rootSecondId then some rootSecondCommit else none
    commit := fun o =>
      if o = rootFirstCommit ∨ o = rootSecondCommit then some ⟨[], [], [], []⟩ else none }

/-- The id of the checkpoint commit below. -/
def checkpointId : GitObjectId := ⟨List.replicate 20 9, rfl⟩

/-- The host once the checkpoint commit written as `t` is `refs/cinnabar/metadata^1`. -/
def checkpointedHost (h : Host) (t : Bytes) : Host :=
  { h with
    oidCommittish := fun r =>
      if r = ascii "refs/cinnabar/metadata^1" then some checkpointId else h.oidCommittish r
    commit := fun o => if o = checkpointId then some ⟨[], [], [], commitMessage t⟩ else h.commit o }

set_option maxRecDepth 4000 in
theorem new_store_latin1_branch :
    ∃ s t s', addChangesetHead latin1Host ChangesetHeads.empty headId headMetadata = .ok s ∧
      storeChangesetsMetadata latin1Host s none = .ok t ∧
      ChangesetHeads.new (checkpointedHost latin1Host t) = .ok s' ∧
      s.heads.map (·.branch) = [[0xFF]] ∧ s'.heads.map (·.branch) = [replacement] ∧
      (∃ s₂, addChangesetHead latin1Host s childId childMetadata = .ok s₂) ∧
      addChangesetHead latin1Host s' childId childMetadata = .error assertionFailed :=
  ⟨_, _, _, rfl, rfl, rfl, rfl, rfl, ⟨_, rfl⟩, rfl⟩

set_option maxRecDepth 4000 in
theorem new_store_roots :
    ∃ s t, ((addChangesetHead rootsHost .empty rootFirstId rootFirstMetadata).bind fun s =>
        addChangesetHead rootsHost s rootSecondId rootSecondMetadata) = .ok s ∧
      storeChangesetsMetadata rootsHost s none = .ok t ∧
      (∀ hd ∈ s.heads, (10 : UInt8) ∉ hd.branch ∧ displayBytes hd.branch = hd.branch ∧
        hd.branch.getLast? ≠ some 13) ∧
      ∃ s', ChangesetHeads.new (checkpointedHost rootsHost t) = .ok s' ∧
        s'.sorted.map (fun hd => (hd.id, hd.branch)) =
          s.sorted.map (fun hd => (hd.id, hd.branch)) ∧
        s'.changesetHeads = s.changesetHeads :=
  ⟨_, _, rfl, rfl, by decide, @ChangesetHeads.new_store rootsHost (checkpointedHost rootsHost _) _
    none _ _ _ (by decide) rfl rfl rfl rfl⟩

end GitCinnabar
