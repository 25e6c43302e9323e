import GitCinnabar.Map
import GitCinnabar.Oid

/-!
# git-cinnabar: changeset extras

`ChangesetExtra` is the `key:value` map of a changeset's extra block (`store.rs`,
`ChangesetExtra`).  It is read by `from` out of a NUL-separated list of entries, each cut at
its first `:`, and written back by `dump_into` in key order, entries joined with NUL.

**Model.**  The `BTreeMap<&BStr, &BStr>` is a list of entries whose keys strictly
increase; the order is a field of the structure, so every `ChangesetExtra` is a valid map.
`from` returns `Except String`: its `unwrap` on an entry without `:` panics.

**Results.**
* `from_dumpInto`: `from` reads back what `dump_into` writes for a map whose keys hold
  neither NUL nor `:` and whose values hold no NUL.
* `from_joinWith_entries`: on a NUL-joined list of entries with ascending keys,
  `from` gives exactly those entries, so that `dump_into` writes the list again.
* `from_dumpInto_inverse`: the two round trips together.
* `from_eq_error`: `from` panics only on a NUL-separated piece without `:`.
-/

namespace GitCinnabar

/-- One `key:value` entry as `dump_into` writes it. -/
def entryBytes (e : Bytes × Bytes) : Bytes := e.1 ++ 58 :: e.2

/-- The extra map of a changeset. -/
structure ChangesetExtra where
  data : List (Bytes × Bytes)
  ascending : KeysAscending Prod.fst data

namespace ChangesetExtra

/-- `ChangesetExtra::new()`. -/
def new : ChangesetExtra := ⟨[], List.Pairwise.nil⟩

/-- `ChangesetExtra::get`. -/
def get (e : ChangesetExtra) (name : Bytes) : Option Bytes :=
  (findBy Prod.fst name e.data).map Prod.snd

/-- `ChangesetExtra::set`, that is `BTreeMap::insert`. -/
def set (e : ChangesetExtra) (name value : Bytes) : ChangesetExtra :=
  ⟨insertBy Prod.fst (name, value) e.data, keysAscending_insertBy _ e.ascending⟩

/-- `ChangesetExtra::dump_into`: the entries in key order, joined with NUL. -/
def dumpInto (e : ChangesetExtra) : Bytes := joinWith 0 (e.data.map entryBytes)

/-- The panic of `Option::unwrap` on `None`. -/
def unwrapNone : String := "called `Option::unwrap()` on a `None` value"

/-- One entry of `from`: `splitn_exact(b':').unwrap()`. -/
def parseEntry (a : Bytes) : Except String (Bytes × Bytes) :=
  match splitnExact 58 2 a with
  | some [k, v] => .ok (k, v)
  | _ => .error unwrapNone

/-- `ChangesetExtra::from`: the empty buffer is the empty map; otherwise the NUL-separated
entries, collected into the map (a later entry for a key wins). -/
def «from» (buf : Bytes) : Except String ChangesetExtra :=
  if buf = [] then .ok new
  else (buf.splitOn 0).mapM parseEntry |>.map fun l => l.foldl (fun e p => e.set p.1 p.2) new

@[ext] theorem ext
    {a b : ChangesetExtra}
    (h : a.data = b.data) :
    a = b := by
  cases a
  cases b
  simp_all

/-- Collecting entries that come in ascending key order builds exactly that list. -/
theorem foldl_set_of_ascending :
    ∀ (pre : ChangesetExtra) (l : List (Bytes × Bytes)),
      KeysAscending Prod.fst (pre.data ++ l) →
      (l.foldl (fun e p => e.set p.1 p.2) pre).data = pre.data ++ l
  | pre, [], _ => by simp
  | pre, (k, v) :: l, h => by
      have hlt : ∀ b ∈ pre.data, bytesLt b.1 k := fun b hb =>
        (List.pairwise_append.mp h).2.2 b hb (k, v) (List.mem_cons_self _ _)
      rw [List.foldl_cons, foldl_set_of_ascending (pre.set k v) l]
      · simp [set, insertBy_of_lt (k, v) hlt]
      · simpa [set, insertBy_of_lt (k, v) hlt] using h

theorem parseEntry_entryBytes
    {e : Bytes × Bytes}
    (h : (58 : UInt8) ∉ e.1) :
    parseEntry (entryBytes e) = .ok e := by
  simp [parseEntry, entryBytes, splitnExact_two_append _ _ h]

theorem mapM_parseEntry
    (l : List (Bytes × Bytes))
    (h : ∀ e ∈ l, (58 : UInt8) ∉ e.1) :
    (l.map entryBytes).mapM parseEntry = .ok l := by
  induction l with
  | nil =>
      rfl
  | cons e l ih =>
      simp only [List.map_cons, List.mapM_cons, parseEntry_entryBytes (h e (List.mem_cons_self _ _)),
        ih (fun e he => h e (List.mem_cons_of_mem _ he))]
      rfl

/-- `from` reads a non-empty buffer whose NUL-separated pieces are entries with ascending
keys, no key holding `:`, as exactly those entries. -/
theorem from_of_splitOn
    {buf : Bytes} {l : List (Bytes × Bytes)}
    (hne : buf ≠ [])
    (hsplit : buf.splitOn 0 = l.map entryBytes)
    (hasc : KeysAscending Prod.fst l)
    (hcolon : ∀ e ∈ l, (58 : UInt8) ∉ e.1) :
    «from» buf = .ok ⟨l, hasc⟩ := by
  simp only [«from», hne, if_false, hsplit, mapM_parseEntry _ hcolon]
  exact congrArg Except.ok (ext (by simpa [new] using foldl_set_of_ascending new l hasc))

/-- `from` reads a NUL-joined list of entries with ascending keys, none holding NUL and no
key holding `:`, as exactly those entries. -/
theorem from_joinWith_entries
    {l : List (Bytes × Bytes)}
    (hasc : KeysAscending Prod.fst l)
    (hcolon : ∀ e ∈ l, (58 : UInt8) ∉ e.1)
    (hnul : ∀ e ∈ l, (0 : UInt8) ∉ e.1 ∧ (0 : UInt8) ∉ e.2) :
    «from» (joinWith 0 (l.map entryBytes)) = .ok ⟨l, hasc⟩ := by
  cases l with
  | nil =>
      rfl
  | cons e l =>
      refine from_of_splitOn (by cases l <;> simp [entryBytes]) ?_ hasc hcolon
      exact splitOn_joinWith (fun x hx => by
        obtain ⟨e', he', rfl⟩ := List.mem_map.mp hx
        simp [entryBytes, (hnul e' he').1, (hnul e' he').2]) (by simp)

/-- What `Except`'s `mapM` returns comes from the list, one result each. -/
theorem mem_of_mapM_ok
    {α β : Type} {f : α → Except String β} :
    ∀ {l : List α} {l' : List β}, l.mapM f = .ok l' → ∀ y ∈ l', ∃ x ∈ l, f x = .ok y
  | [], l', h, y, hy => by
      cases h
      simp at hy
  | a :: l, l', h, y, hy => by
      simp only [List.mapM_cons, bind, Except.bind] at h
      split at h
      · cases h
      · next b hb =>
          split at h
          · cases h
          · next bs hbs =>
              cases h
              rcases List.mem_cons.mp hy with rfl | hy
              · exact ⟨a, List.mem_cons_self _ _, hb⟩
              · obtain ⟨x, hx, hfx⟩ := mem_of_mapM_ok hbs y hy
                exact ⟨x, List.mem_cons_of_mem _ hx, hfx⟩

/-- An `Except` `mapM` that fails fails on an item of the list. -/
theorem exists_of_mapM_error
    {α β : Type} {f : α → Except String β} {err : String} :
    ∀ {l : List α}, l.mapM f = .error err → ∃ x ∈ l, f x = .error err
  | [], h => by cases h
  | a :: l, h => by
      rw [List.mapM_cons] at h
      rcases bind_eq_error.mp h with h | ⟨_, -, h⟩
      · exact ⟨a, List.mem_cons_self _ _, h⟩
      · rcases bind_eq_error.mp h with h | ⟨_, -, h⟩
        · obtain ⟨x, hx, hfx⟩ := exists_of_mapM_error h
          exact ⟨x, List.mem_cons_of_mem _ hx, hfx⟩
        · cases h

/-- `splitn_exact(b':').unwrap()` panics exactly on an entry without `:`. -/
theorem parseEntry_eq_error
    {a : Bytes} {err : String}
    (h : parseEntry a = .error err) :
    err = unwrapNone ∧ (58 : UInt8) ∉ a := by
  refine ⟨?_, fun h58 => ?_⟩
  · unfold parseEntry at h
    split at h
    · cases h
    · exact (Except.error.inj h).symm
  · obtain ⟨k, v, rfl, hk⟩ := exists_split_first h58
    simp [parseEntry, splitnExact_two_append _ _ hk] at h

/-- `from` panics only on an entry without `:`. -/
theorem from_eq_error
    {buf : Bytes} {err : String}
    (h : «from» buf = .error err) :
    err = unwrapNone ∧ ∃ a ∈ buf.splitOn 0, (58 : UInt8) ∉ a := by
  unfold «from» at h
  split at h
  · cases h
  · cases hl : (buf.splitOn 0).mapM parseEntry with
    | ok l =>
        simp only [hl, Except.map] at h
        cases h
    | error e =>
        simp only [hl, Except.map, Except.error.injEq] at h
        subst h
        obtain ⟨a, ha, hpa⟩ := exists_of_mapM_error hl
        exact ⟨(parseEntry_eq_error hpa).1, a, ha, (parseEntry_eq_error hpa).2⟩

theorem mem_of_mem_foldl_set
    {p : Bytes × Bytes} :
    ∀ {l : List (Bytes × Bytes)} {pre : ChangesetExtra},
      p ∈ (l.foldl (fun e q => e.set q.1 q.2) pre).data → p ∈ pre.data ∨ p ∈ l
  | [], pre, h => .inl h
  | q :: l, pre, h => by
      rcases mem_of_mem_foldl_set (l := l) h with h | h
      · rcases mem_insertBy_of_mem h with rfl | h
        · exact .inr (List.mem_cons_self _ _)
        · exact .inl h
      · exact .inr (List.mem_cons_of_mem _ h)

/-- The keys and values `from` reads hold only bytes of the buffer. -/
theorem mem_of_from
    {buf : Bytes} {e : ChangesetExtra} {p : Bytes × Bytes} {c : UInt8}
    (h : «from» buf = .ok e)
    (hp : p ∈ e.data)
    (hc : c ∈ p.1 ∨ c ∈ p.2) :
    c ∈ buf := by
  unfold «from» at h
  split at h
  · cases h
    simp [new] at hp
  · cases hl : (buf.splitOn 0).mapM parseEntry with
    | error err =>
        simp only [hl, Except.map] at h
        cases h
    | ok l =>
        simp only [hl, Except.map, Except.ok.injEq] at h
        subst h
        rcases mem_of_mem_foldl_set hp with hp | hp
        · simp [new] at hp
        · obtain ⟨a, ha, hpa⟩ := mem_of_mapM_ok hl p hp
          unfold parseEntry at hpa
          split at hpa
          · next k v hs =>
              cases hpa
              obtain ⟨k', v', hkv, rfl, -⟩ := splitnExact_two_eq_some hs
              simp only [List.cons.injEq, and_true] at hkv
              obtain ⟨rfl, rfl⟩ := hkv
              refine mem_of_mem_splitOn ha ?_
              rcases hc with hc | hc <;> simp [hc]
          · cases hpa

/-- A value `get` finds is the value of an entry. -/
theorem mem_of_get
    {e : ChangesetExtra} {name v : Bytes}
    (h : e.get name = some v) :
    ∃ p ∈ e.data, p.2 = v := by
  obtain ⟨p, hp, rfl⟩ := Option.map_eq_some'.mp h
  exact ⟨p, List.mem_of_find?_eq_some hp, rfl⟩

/-- A byte that no key or value holds, other than NUL and `:`, is not in `dump_into`. -/
theorem not_mem_dumpInto
    {e : ChangesetExtra} {c : UInt8}
    (h0 : c ≠ 0)
    (h58 : c ≠ 58)
    (h : ∀ p ∈ e.data, c ∉ p.1 ∧ c ∉ p.2) :
    c ∉ e.dumpInto := fun hc => by
  rcases mem_joinWith hc with rfl | ⟨l, hl, hcl⟩
  · exact h0 rfl
  · obtain ⟨p, hp, rfl⟩ := List.mem_map.mp hl
    simp only [entryBytes, List.mem_append, List.mem_cons] at hcl
    rcases hcl with h1 | rfl | h2
    · exact (h p hp).1 h1
    · exact h58 rfl
    · exact (h p hp).2 h2

/-- `from` reads back `dump_into`. -/
theorem from_dumpInto
    (e : ChangesetExtra)
    (hcolon : ∀ p ∈ e.data, (58 : UInt8) ∉ p.1)
    (hnul : ∀ p ∈ e.data, (0 : UInt8) ∉ p.1 ∧ (0 : UInt8) ∉ p.2) :
    «from» e.dumpInto = .ok e :=
  from_joinWith_entries e.ascending hcolon hnul

/-- `from` and `dump_into` are inverse: `from` reads back what `dump_into` writes for a map
whose keys hold neither NUL nor `:` and whose values hold no NUL, and `dump_into` writes
back a buffer that is empty or whose NUL-separated pieces are `key:value` entries with
ascending keys free of `:`. -/
theorem from_dumpInto_inverse :
    (∀ e : ChangesetExtra, (∀ p ∈ e.data, (0 : UInt8) ∉ p.1 ∧ (58 : UInt8) ∉ p.1 ∧
        (0 : UInt8) ∉ p.2) → «from» e.dumpInto = .ok e) ∧
    (∀ buf : Bytes, (buf = [] ∨ ∃ l : List (Bytes × Bytes), buf.splitOn 0 = l.map entryBytes ∧
        (∀ p ∈ l, (58 : UInt8) ∉ p.1) ∧ KeysAscending Prod.fst l) →
      ∃ e, «from» buf = .ok e ∧ e.dumpInto = buf) := by
  refine ⟨fun e h => from_dumpInto e (fun p hp => (h p hp).2.1)
    (fun p hp => ⟨(h p hp).1, (h p hp).2.2⟩), ?_⟩
  rintro buf (rfl | ⟨l, hsplit, hcolon, hasc⟩)
  · exact ⟨new, rfl, rfl⟩
  · have hne : buf ≠ [] := by
      rintro rfl
      cases l with
      | nil => cases hsplit
      | cons e l =>
          simp only [List.splitOn_nil, List.map_cons, List.cons.injEq] at hsplit
          simpa [entryBytes] using hsplit.1
    refine ⟨⟨l, hasc⟩, from_of_splitOn hne hsplit hasc hcolon, ?_⟩
    rw [dumpInto, ← hsplit, joinWith_splitOn]

/-- A map with `:` in a value, and a buffer of two entries, one with an empty value. -/
theorem from_dumpInto_inverse_samples :
    «from» (⟨[(ascii "a", ascii "x:y")], List.pairwise_singleton _ _⟩ : ChangesetExtra).dumpInto =
        .ok ⟨[(ascii "a", ascii "x:y")], List.pairwise_singleton _ _⟩ ∧
      ∃ e, «from» (ascii "a:1\x00b:") = .ok e ∧ e.dumpInto = ascii "a:1\x00b:" :=
  ⟨from_dumpInto_inverse.1 _ (by decide),
    from_dumpInto_inverse.2 _ (.inr ⟨[(ascii "a", ascii "1"), (ascii "b", [])], by decide,
      by decide, by decide⟩)⟩

/-- A map that `dump_into` writes on one line and that `from` reads back: no key holds
`:`, and no key or value holds NUL or `\n`. -/
def OnOneLine (e : ChangesetExtra) : Prop :=
  ∀ p ∈ e.data, (58 : UInt8) ∉ p.1 ∧ (0 : UInt8) ∉ p.1 ∧ (0 : UInt8) ∉ p.2 ∧
    (10 : UInt8) ∉ p.1 ∧ (10 : UInt8) ∉ p.2

instance : DecidablePred OnOneLine := fun e =>
  inferInstanceAs (Decidable (∀ p ∈ e.data, _ ∧ _))

theorem OnOneLine.not_mem_nl
    {e : ChangesetExtra}
    (h : e.OnOneLine) :
    (10 : UInt8) ∉ e.dumpInto :=
  not_mem_dumpInto (by decide) (by decide) fun p hp => ⟨(h p hp).2.2.2.1, (h p hp).2.2.2.2⟩

theorem not_mem_map_dumpInto
    {extra : Option ChangesetExtra}
    (h : ∀ e ∈ extra, e.OnOneLine) :
    ∀ d ∈ extra.map (·.dumpInto), (10 : UInt8) ∉ d := by
  simp only [Option.mem_def, Option.map_eq_some', forall_exists_index, and_imp]
  rintro _ e he rfl
  exact (h e he).not_mem_nl

/-- `map(ChangesetExtra::from)` reads back an optional `dump_into`. -/
theorem mapM_from_dumpInto
    {extra : Option ChangesetExtra}
    (h : ∀ e ∈ extra, e.OnOneLine) :
    (extra.map dumpInto).mapM «from» = .ok extra := by
  cases extra with
  | none => rfl
  | some e =>
      have he := h e rfl
      show some <$> «from» e.dumpInto = _
      rw [from_dumpInto e (fun p hp => (he p hp).1) (fun p hp => ⟨(he p hp).2.1, (he p hp).2.2.1⟩)]
      rfl

end ChangesetExtra

end GitCinnabar
