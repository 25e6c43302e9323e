import GitCinnabar.Bytes

/-!
# git-cinnabar: ordered maps

`store.rs` keeps two `BTreeMap`s: the extra map of a changeset, keyed by byte strings, and
the head set, keyed by changeset ids.  Both are ordered by the bytes of their keys.

**Model.**  A map is a list of entries whose keys, read as bytes by `key`, strictly
increase (`KeysAscending`).  `insertBy` is `BTreeMap::insert` (a new key goes to its place,
an old one gets the new entry), `eraseBy` is `BTreeMap::remove`, `findBy` is
`BTreeMap::get`.

**Results.**
* `keysAscending_insertBy`, `keysAscending_eraseBy`: both keep the keys ascending.
* `insertBy_perm`: on ascending keys, inserting an entry is erasing its key and adding it.
-/

namespace GitCinnabar

section Map

variable {α : Type} (key : α → Bytes)

/-- Keys strictly ascending. -/
def KeysAscending (l : List α) : Prop := l.Pairwise fun a b => bytesLt (key a) (key b)

instance : DecidablePred (KeysAscending key) := fun l =>
  inferInstanceAs (Decidable (l.Pairwise _))

/-- `BTreeMap::insert`: a new key goes to its place, an entry with the same key is
replaced. -/
def insertBy (x : α) : List α → List α
  | [] => [x]
  | y :: rest =>
      if bytesLt (key x) (key y) then x :: y :: rest
      else if key x = key y then x :: rest
      else y :: insertBy x rest

/-- `BTreeMap::remove`. -/
def eraseBy (k : Bytes) (l : List α) : List α := l.filter fun y => key y ≠ k

/-- `BTreeMap::get`. -/
def findBy (k : Bytes) (l : List α) : Option α := l.find? fun y => key y = k

variable {key}

theorem mem_insertBy_of_mem
    {x y : α} :
    ∀ {l : List α}, y ∈ insertBy key x l → y = x ∨ y ∈ l
  | [], h => .inl (List.mem_singleton.mp h)
  | z :: rest, h => by
      unfold insertBy at h
      split at h
      · exact List.mem_cons.mp h
      · split at h
        · rcases List.mem_cons.mp h with rfl | h
          · exact .inl rfl
          · exact .inr (List.mem_cons_of_mem _ h)
        · rcases List.mem_cons.mp h with rfl | h
          · exact .inr (List.mem_cons_self _ _)
          · exact (mem_insertBy_of_mem h).imp_right (List.mem_cons_of_mem _)

theorem keysAscending_insertBy
    (x : α) :
    ∀ {l : List α}, KeysAscending key l → KeysAscending key (insertBy key x l)
  | [], _ => List.pairwise_singleton _ _
  | y :: rest, h => by
      have hrest : ∀ b ∈ rest, bytesLt (key y) (key b) := (List.pairwise_cons.mp h).1
      unfold insertBy
      split
      · next hlt =>
          exact List.Pairwise.cons (fun b hb => by
            rcases List.mem_cons.mp hb with rfl | hb
            · exact hlt
            · exact bytesLt_trans hlt (hrest b hb)) h
      · split
        · next heq =>
            exact List.Pairwise.cons (fun b hb => heq ▸ hrest b hb) (List.pairwise_cons.mp h).2
        · next hlt hne =>
            have hgt : bytesLt (key y) (key x) := by
              rcases bytesLt_trichotomy (key x) (key y) with h' | h' | h'
              · simp [h'] at hlt
              · exact absurd h' hne
              · exact h'
            refine List.Pairwise.cons (fun b hb => ?_)
              (keysAscending_insertBy x (List.pairwise_cons.mp h).2)
            exact (mem_insertBy_of_mem hb).elim (fun hb => hb ▸ hgt) (hrest b)

theorem keysAscending_eraseBy
    (k : Bytes)
    {l : List α}
    (h : KeysAscending key l) :
    KeysAscending key (eraseBy key k l) :=
  h.filter _

/-- Erasing a key that no entry has changes nothing. -/
theorem eraseBy_of_forall_ne
    {k : Bytes} {l : List α}
    (h : ∀ y ∈ l, key y ≠ k) :
    eraseBy key k l = l :=
  List.filter_eq_self.mpr fun y hy => by simpa using h y hy

/-- On ascending keys, `insert` is `remove` of the key, then the new entry. -/
theorem insertBy_perm
    (x : α) :
    ∀ {l : List α}, KeysAscending key l → (insertBy key x l).Perm (x :: eraseBy key (key x) l)
  | [], _ => List.Perm.refl _
  | y :: rest, h => by
      have hrest : ∀ b ∈ rest, bytesLt (key y) (key b) := (List.pairwise_cons.mp h).1
      unfold insertBy
      split
      · next hlt =>
          rw [eraseBy_of_forall_ne fun b hb => ?_]
          rcases List.mem_cons.mp hb with rfl | hb
          · exact fun he => by simp [he] at hlt
          · exact fun he => by
              have := bytesLt_trans hlt (hrest b hb)
              simp [he] at this
      · split
        · next heq =>
            have hne : ∀ b ∈ rest, key b ≠ key x := fun b hb he => by
              have := hrest b hb
              simp [he, heq] at this
            have herase : eraseBy key (key x) (y :: rest) = rest := by
              rw [eraseBy, List.filter_cons_of_neg (by simp [heq]), ← eraseBy,
                eraseBy_of_forall_ne hne]
            rw [herase]
        · next hlt hne =>
            have hy : key y ≠ key x := Ne.symm hne
            have := insertBy_perm x (List.pairwise_cons.mp h).2
            simpa [eraseBy, hy] using (this.cons y).trans (List.Perm.swap x y _)

/-- Inserting a key greater than all keys appends the entry. -/
theorem insertBy_of_lt
    (x : α) :
    ∀ {l : List α}, (∀ b ∈ l, bytesLt (key b) (key x)) → insertBy key x l = l ++ [x]
  | [], _ => rfl
  | y :: rest, h => by
      have hk : bytesLt (key y) (key x) := h y (List.mem_cons_self _ _)
      have hne : key x ≠ key y := fun he => by simp [he] at hk
      simp [insertBy, bytesLt_asymm hk, hne,
        insertBy_of_lt x (fun b hb => h b (List.mem_cons_of_mem _ hb))]

end Map

end GitCinnabar
