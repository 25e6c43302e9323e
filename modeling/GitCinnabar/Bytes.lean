import Mathlib.Algebra.Group.Nat.Basic
import Mathlib.Data.List.Sort

/-!
# git-cinnabar: byte strings

The byte-string toolkit that `store.rs` and `hg_connect_http.rs` are written with:
`<[u8]>::split`, `<[u8]>::splitn`, the `splitn_exact` helper, bstr's `lines()`,
Rust's order on byte slices and the decimal `{}` of an unsigned integer.

**Model.**  A byte string is a `List UInt8`.  Each operation is a structurally recursive
function, so that it can be evaluated on a concrete input.  `splitn_exact` lives in
`util.rs`, which is not part of the sources at hand; it is modelled on its use: split at
the first `n - 1` separators and succeed exactly when there are that many.

**Results.**
* `splitFirst_append`, `splitOn_joinWith`: splitting a string built with a separator
  that occurs nowhere else gives the pieces back.
* `splitFirstStr_append_of_not_mem`, `splitFirstStr_nl_cons`: no blank line starts inside
  a piece without `\n`, nor at a `\n` followed by another byte.
* `lines_joinWith`: bstr's `lines()` reads back `\n`-joined lines that contain no
  `\n`, up to a final `\r`.
* `bytesLt` is a strict total order (`bytesLt_irrefl`, `bytesLt_trans`,
  `bytesLt_trichotomy`).
-/

namespace GitCinnabar

/-- A byte string: `&[u8]`, `Vec<u8>`, `BString`, `ImmutBString`. -/
abbrev Bytes := List UInt8

/-- The bytes of an ASCII literal `b"..."`. -/
def ascii (s : String) : Bytes := s.toList.map (fun c => c.toNat.toUInt8)

/-- A `do` block in `Except` succeeds exactly when its first step does and the rest does
on that step's result. -/
theorem bind_eq_ok
    {ε α β : Type} {x : Except ε α} {f : α → Except ε β} {b : β} :
    x >>= f = .ok b ↔ ∃ a, x = .ok a ∧ f a = .ok b := by
  cases x <;> simp [bind, Except.bind]

/-- A `do` block in `Except` fails exactly when its first step does, or the rest does on
that step's result. -/
theorem bind_eq_error
    {ε α β : Type} {x : Except ε α} {f : α → Except ε β} {e : ε} :
    x >>= f = .error e ↔ x = .error e ∨ ∃ a, x = .ok a ∧ f a = .error e := by
  cases x <;> simp [bind, Except.bind]

@[simp] theorem ok_bind
    {ε α β : Type} (a : α) (f : α → Except ε β) :
    (Except.ok a : Except ε α) >>= f = f a :=
  rfl

@[simp] theorem error_bind
    {ε α β : Type} (e : ε) (f : α → Except ε β) :
    (Except.error e : Except ε α) >>= f = .error e :=
  rfl

/-! ## Splitting at one byte -/

/-- The piece before the first `sep` and the rest after it; `none` when `sep` does not
occur. -/
def splitFirst (sep : UInt8) : Bytes → Option (Bytes × Bytes)
  | [] => none
  | b :: s => if b = sep then some ([], s) else (splitFirst sep s).map fun p => (b :: p.1, p.2)

/-- `<[u8]>::splitn(n, |&b| b == sep)`: at most `n` pieces, the last one holding the rest. -/
def splitn (sep : UInt8) : Nat → Bytes → List Bytes
  | 0, _ => []
  | 1, s => [s]
  | n + 2, s =>
      match splitFirst sep s with
      | none => [s]
      | some (a, rest) => a :: splitn sep (n + 1) rest

/-- `SliceExt::splitn_exact::<N>(sep)`: the `N` pieces of `splitn(N, sep)`, provided there
are `N` of them. -/
def splitnExact (sep : UInt8) (n : Nat) (s : Bytes) : Option (List Bytes) :=
  if (splitn sep n s).length = n then some (splitn sep n s) else none

theorem splitFirst_eq_none
    {sep : UInt8} {s : Bytes}
    (h : sep ∉ s) :
    splitFirst sep s = none := by
  induction s with
  | nil =>
      rfl
  | cons b s ih =>
      simp only [List.mem_cons, not_or] at h
      simp [splitFirst, Ne.symm h.1, ih h.2]

@[simp] theorem splitFirst_append
    {sep : UInt8} (a b : Bytes)
    (h : sep ∉ a) :
    splitFirst sep (a ++ sep :: b) = some (a, b) := by
  induction a with
  | nil =>
      simp [splitFirst]
  | cons x a ih =>
      simp only [List.mem_cons, not_or] at h
      simp [splitFirst, Ne.symm h.1, ih h.2]

/-- A byte that occurs is found: the string splits at its first occurrence. -/
theorem exists_split_first
    {sep : UInt8} {s : Bytes}
    (h : sep ∈ s) :
    ∃ a b, s = a ++ sep :: b ∧ sep ∉ a := by
  induction s with
  | nil =>
      cases h
  | cons x s ih =>
      by_cases hx : x = sep
      · exact ⟨[], s, by rw [hx]; rfl, List.not_mem_nil _⟩
      · obtain ⟨a, b, rfl, ha⟩ := ih ((List.mem_cons.mp h).resolve_left (Ne.symm hx))
        exact ⟨x :: a, b, rfl, by simp [ha, Ne.symm hx]⟩

/-- What a successful `splitFirst` found. -/
theorem splitFirst_eq_some
    {sep : UInt8} {s a b : Bytes}
    (h : splitFirst sep s = some (a, b)) :
    s = a ++ sep :: b ∧ sep ∉ a := by
  induction s generalizing a with
  | nil =>
      simp [splitFirst] at h
  | cons x s ih =>
      by_cases hx : x = sep
      · simp only [splitFirst, hx, if_true, Option.some.injEq, Prod.mk.injEq] at h
        obtain ⟨rfl, rfl⟩ := h
        simp [hx]
      · simp only [splitFirst, hx, if_false, Option.map_eq_some', Prod.exists] at h
        obtain ⟨a', b', hs, rfl, rfl⟩ := h
        obtain ⟨rfl, hna⟩ := ih hs
        simp [hna, Ne.symm hx]

@[simp] theorem splitn_one
    (sep : UInt8) (s : Bytes) :
    splitn sep 1 s = [s] := by
  rfl

theorem splitn_of_not_mem
    {sep : UInt8} {s : Bytes}
    (n : Nat)
    (hn : 0 < n)
    (h : sep ∉ s) :
    splitn sep n s = [s] := by
  match n, hn with
  | 1, _ => rfl
  | n + 2, _ => simp [splitn, splitFirst_eq_none h]

@[simp] theorem splitn_append
    {sep : UInt8} (n : Nat) (a b : Bytes)
    (h : sep ∉ a) :
    splitn sep (n + 2) (a ++ sep :: b) = a :: splitn sep (n + 1) b := by
  simp [splitn, h]

@[simp] theorem splitn_two_append
    {sep : UInt8} (a b : Bytes)
    (h : sep ∉ a) :
    splitn sep 2 (a ++ sep :: b) = [a, b] := by
  simp [h]

theorem splitnExact_two_append
    {sep : UInt8} (a b : Bytes)
    (h : sep ∉ a) :
    splitnExact sep 2 (a ++ sep :: b) = some [a, b] := by
  simp [splitnExact, h]

theorem splitnExact_three_append
    {sep : UInt8} (a b c : Bytes)
    (ha : sep ∉ a)
    (hb : sep ∉ b) :
    splitnExact sep 3 (a ++ sep :: (b ++ sep :: c)) = some [a, b, c] := by
  simp [splitnExact, ha, hb]

/-- A `splitn_exact::<2>` success is a split at the first separator. -/
theorem splitnExact_two_eq_some
    {sep : UInt8} {s : Bytes} {l : List Bytes}
    (h : splitnExact sep 2 s = some l) :
    ∃ a b, l = [a, b] ∧ s = a ++ sep :: b ∧ sep ∉ a := by
  simp only [splitnExact, splitn] at h
  cases hs : splitFirst sep s with
  | none =>
      simp [hs] at h
  | some q =>
      obtain ⟨a, b⟩ := q
      simp only [hs, splitn_one] at h
      simp only [List.length_cons, List.length_nil, Nat.reduceAdd, if_true,
        Option.some.injEq] at h
      exact ⟨a, b, h.symm, splitFirst_eq_some hs⟩

/-- The pieces joined with `sep` between them (`Itertools::intersperse`, `[sep].join`). -/
def joinWith (sep : UInt8) : List Bytes → Bytes
  | [] => []
  | [x] => x
  | x :: y :: r => x ++ sep :: joinWith sep (y :: r)

@[simp] theorem joinWith_nil
    (sep : UInt8) :
    joinWith sep [] = [] := by
  rfl

@[simp] theorem joinWith_singleton
    (sep : UInt8) (x : Bytes) :
    joinWith sep [x] = x := by
  rfl

@[simp] theorem joinWith_cons_cons
    (sep : UInt8) (x y : Bytes) (r : List Bytes) :
    joinWith sep (x :: y :: r) = x ++ sep :: joinWith sep (y :: r) := by
  rfl

theorem joinWith_eq_intercalate
    (sep : UInt8) :
    ∀ ls, joinWith sep ls = [sep].intercalate ls
  | [] => rfl
  | [x] => by simp [List.intercalate]
  | x :: y :: r => by
      rw [joinWith_cons_cons, joinWith_eq_intercalate sep (y :: r)]
      simp [List.intercalate, List.intersperse_cons_cons]

theorem mem_joinWith_of_mem
    {sep c : UInt8} {l : Bytes} :
    ∀ {ls : List Bytes}, l ∈ ls → c ∈ l → c ∈ joinWith sep ls
  | [_], hl, hc => by simpa [List.mem_singleton.mp hl] using hc
  | x :: y :: r, hl, hc => by
      rw [joinWith_cons_cons, List.mem_append, List.mem_cons]
      rcases List.mem_cons.mp hl with rfl | hl
      · exact .inl hc
      · exact .inr (.inr (mem_joinWith_of_mem hl hc))

/-- Joining the pieces of `split` with the separator gives the string back. -/
theorem joinWith_splitOn
    (sep : UInt8) (s : Bytes) :
    joinWith sep (s.splitOn sep) = s := by
  rw [joinWith_eq_intercalate]
  exact List.intercalate_splitOn s sep

/-- The pieces of `split` hold only bytes of the string. -/
theorem mem_of_mem_splitOn
    {sep c : UInt8} {s piece : Bytes}
    (hp : piece ∈ s.splitOn sep)
    (hc : c ∈ piece) :
    c ∈ s :=
  joinWith_splitOn sep s ▸ mem_joinWith_of_mem hp hc

theorem mem_joinWith
    {sep x : UInt8} :
    ∀ {ls : List Bytes}, x ∈ joinWith sep ls → x = sep ∨ ∃ l ∈ ls, x ∈ l
  | [], h => by simp at h
  | [l], h => .inr ⟨l, List.mem_singleton_self _, h⟩
  | l :: m :: ls, h => by
      simp only [joinWith_cons_cons, List.mem_append, List.mem_cons] at h
      rcases h with h | rfl | h
      · exact .inr ⟨l, List.mem_cons_self _ _, h⟩
      · exact .inl rfl
      · rcases mem_joinWith h with h | ⟨l', hl', h⟩
        · exact .inl h
        · exact .inr ⟨l', List.mem_cons_of_mem _ hl', h⟩

/-- `<[u8]>::split(|&b| b == sep)` undoes `joinWith` when no piece holds `sep`. -/
theorem splitOn_joinWith
    {sep : UInt8} {ls : List Bytes}
    (hx : ∀ l ∈ ls, sep ∉ l)
    (hls : ls ≠ []) :
    (joinWith sep ls).splitOn sep = ls := by
  rw [joinWith_eq_intercalate]
  exact List.splitOn_intercalate ls sep hx hls

/-- A list without `sep` is one piece. -/
theorem splitOn_of_not_mem
    {sep : UInt8} {l : Bytes}
    (h : sep ∉ l) :
    l.splitOn sep = [l] := by
  simpa using @splitOn_joinWith sep [l] (by simpa using h) (by simp)

/-! ## Splitting at a blank line -/

/-- The piece before the first occurrence of `sep` and the rest after it:
`splitn_exact::<2>` with a byte-string separator, here always `b"\n\n"`. -/
def splitFirstStr (sep : Bytes) : Bytes → Option (Bytes × Bytes)
  | [] => none
  | b :: s =>
      if sep.isPrefixOf (b :: s) then some ([], (b :: s).drop sep.length)
      else (splitFirstStr sep s).map fun p => (b :: p.1, p.2)

/-- A blank line right at the start. -/
@[simp] theorem splitFirstStr_blank
    (b : Bytes) :
    splitFirstStr [10, 10] (10 :: 10 :: b) = some ([], b) := by
  simp [splitFirstStr, List.isPrefixOf]

/-- No blank line starts inside a piece without `\n`. -/
theorem splitFirstStr_append_of_not_mem
    {p : Bytes} (r : Bytes)
    (h : (10 : UInt8) ∉ p) :
    splitFirstStr [10, 10] (p ++ r) =
      (splitFirstStr [10, 10] r).map fun q => (p ++ q.1, q.2) := by
  induction p with
  | nil =>
      simp
  | cons x p ih =>
      simp only [List.mem_cons, not_or] at h
      simp [splitFirstStr, List.isPrefixOf, h.1, ih h.2, Option.map_map, Function.comp_def]

/-- A `\n` followed by another byte does not start a blank line. -/
theorem splitFirstStr_nl_cons
    {y : UInt8} (r : Bytes)
    (hy : y ≠ 10) :
    splitFirstStr [10, 10] (10 :: y :: r) =
      (splitFirstStr [10, 10] (y :: r)).map fun q => (10 :: q.1, q.2) := by
  simp [splitFirstStr, List.isPrefixOf, Ne.symm hy]

/-! ## Lines -/

/-- bstr's `trim_last_terminator` for a line read up to its `\n`: a final `\r` goes. -/
def trimCr (l : Bytes) : Bytes := if l.getLast? = some 13 then l.dropLast else l

/-- bstr's `lines()` with the current line kept reversed in `acc`. -/
def linesGo : Bytes → Bytes → List Bytes
  | [], acc => if acc = [] then [] else [acc.reverse]
  | b :: s, acc => if b = 10 then trimCr acc.reverse :: linesGo s [] else linesGo s (b :: acc)

/-- bstr's `lines()`: the lines of `s`, without their `\n` or `\r\n` terminator; a final
line without terminator is kept as it is. -/
def lines (s : Bytes) : List Bytes := linesGo s []

theorem linesGo_append
    {l : Bytes} (s acc : Bytes)
    (h : (10 : UInt8) ∉ l) :
    linesGo (l ++ s) acc = linesGo s (l.reverse ++ acc) := by
  induction l generalizing acc with
  | nil =>
      rfl
  | cons x l ih =>
      simp only [List.mem_cons, not_or] at h
      simp [linesGo, Ne.symm h.1, ih _ h.2]

/-- One terminated line. -/
theorem lines_append_nl
    {l : Bytes} (s : Bytes)
    (h : (10 : UInt8) ∉ l) :
    lines (l ++ 10 :: s) = trimCr l :: lines s := by
  simp [lines, linesGo_append _ _ h, linesGo]

/-- A last line without terminator. -/
theorem lines_of_not_mem
    {l : Bytes}
    (h : (10 : UInt8) ∉ l)
    (hne : l ≠ []) :
    lines l = [l] := by
  rw [lines, ← List.append_nil l, linesGo_append _ _ h]
  simp [linesGo, hne]

/-- A line as `lines()` gives it back: as it was written, or less a final `\r`. -/
def ReadsBack (l l' : Bytes) : Prop := l' = l ∨ l' = trimCr l

/-- bstr's `lines()` reads back non-empty `\n`-joined lines without `\n`; each but the
last one loses a final `\r`. -/
theorem lines_joinWith :
    ∀ (l : Bytes) (ls : List Bytes), (∀ x ∈ l :: ls, x ≠ [] ∧ (10 : UInt8) ∉ x) →
      List.Forall₂ ReadsBack (l :: ls) (lines (joinWith 10 (l :: ls)))
  | l, [], h => by
      have hl := h l (List.mem_cons_self _ _)
      rw [joinWith_singleton, lines_of_not_mem hl.2 hl.1]
      exact .cons (.inl rfl) .nil
  | l, m :: ls, h => by
      rw [joinWith_cons_cons, lines_append_nl _ (h l (List.mem_cons_self _ _)).2]
      exact .cons (.inr rfl) (lines_joinWith m ls fun x hx => h x (List.mem_cons_of_mem _ hx))

/-- A final `\r` is the last byte: one before it stays. -/
theorem trimCr_append_cons
    (a : Bytes) {x : UInt8} (d : Bytes)
    (hx : x ≠ 13) :
    trimCr (a ++ x :: d) = a ++ x :: trimCr d := by
  induction d using List.reverseRecOn with
  | nil => simp [trimCr, hx]
  | append_singleton d y _ =>
      have e : a ++ x :: (d ++ [y]) = (a ++ x :: d) ++ [y] := by simp
      simp only [e, trimCr, List.getLast?_concat, List.dropLast_concat]
      split <;> simp

theorem trimCr_of_not_mem
    {l : Bytes}
    (h : (13 : UInt8) ∉ l) :
    trimCr l = l :=
  if_neg fun hl => h (List.mem_of_getLast?_eq_some hl)

/-- Lines written each with its `\n` read back, each less a final `\r`. -/
theorem lines_flatMap_nl :
    ∀ {ls : List Bytes}, (∀ l ∈ ls, (10 : UInt8) ∉ l) →
      lines (ls.flatMap (· ++ [10])) = ls.map trimCr
  | [], _ => rfl
  | l :: ls, h => by
      rw [List.flatMap_cons, List.append_assoc, List.singleton_append,
        lines_append_nl _ (h l (List.mem_cons_self _ _)),
        lines_flatMap_nl fun x hx => h x (List.mem_cons_of_mem _ hx), List.map_cons]

theorem ReadsBack.append_cons
    {a d l' : Bytes} {x : UInt8}
    (hx : x ≠ 13)
    (h : ReadsBack (a ++ x :: d) l') :
    ∃ d', ReadsBack d d' ∧ l' = a ++ x :: d' := by
  rcases h with rfl | rfl
  · exact ⟨d, .inl rfl, rfl⟩
  · exact ⟨trimCr d, .inr rfl, trimCr_append_cons a d hx⟩

theorem ReadsBack.not_mem
    {l l' : Bytes} {c : UInt8}
    (h : ReadsBack l l')
    (hc : c ∉ l) :
    c ∉ l' := by
  rcases h with rfl | rfl
  · exact hc
  · unfold trimCr
    split
    · exact fun h => hc (List.dropLast_subset _ h)
    · exact hc

/-- A line that does not end in `\r` comes back as it was. -/
theorem ReadsBack.eq
    {l l' : Bytes}
    (h : ReadsBack l l')
    (hl : l.getLast? ≠ some 13) :
    l' = l := by
  rcases h with rfl | rfl
  · rfl
  · simp [trimCr, hl]

/-- No line holds a `\n`. -/
theorem not_mem_of_mem_linesGo :
    ∀ {s acc x : Bytes}, (10 : UInt8) ∉ acc → x ∈ linesGo s acc → (10 : UInt8) ∉ x
  | [], acc, x, hacc, hx => by
      by_cases h : acc = [] <;> simp_all [linesGo]
  | b :: s, acc, x, hacc, hx => by
      by_cases hb : b = 10
      · simp only [linesGo, hb, if_true, List.mem_cons] at hx
        rcases hx with rfl | hx
        · unfold trimCr
          split
          · exact fun h => hacc (List.mem_reverse.mp (List.dropLast_subset _ h))
          · simpa using hacc
        · exact not_mem_of_mem_linesGo (List.not_mem_nil _) hx
      · simp only [linesGo, hb, if_false] at hx
        exact not_mem_of_mem_linesGo (by simp [Ne.symm hb, hacc]) hx

theorem not_mem_of_mem_lines
    {s x : Bytes}
    (hx : x ∈ lines s) :
    (10 : UInt8) ∉ x :=
  not_mem_of_mem_linesGo (List.not_mem_nil _) hx

/-! ## Order -/

/-- Rust's `Ord` on byte slices (on `&[u8]`, `BString` and the 20-byte ids):
lexicographic, a proper prefix first. -/
def bytesLt : Bytes → Bytes → Bool
  | [], [] => false
  | [], _ :: _ => true
  | _ :: _, [] => false
  | a :: s, b :: t => a < b || (a = b && bytesLt s t)

@[simp] theorem bytesLt_irrefl :
    ∀ s, bytesLt s s = false
  | [] => rfl
  | a :: s => by simp [bytesLt, bytesLt_irrefl s]

theorem bytesLt_trans :
    ∀ {s t u : Bytes}, bytesLt s t → bytesLt t u → bytesLt s u
  | [], _ :: _, _ :: _, _, _ => rfl
  | a :: s, b :: t, c :: u, hst, htu => by
      simp only [bytesLt, Bool.or_eq_true, decide_eq_true_eq, Bool.and_eq_true] at hst htu ⊢
      rcases hst with hab | ⟨rfl, hst⟩ <;> rcases htu with hbc | ⟨rfl, htu⟩
      · exact .inl (UInt8.lt_trans hab hbc)
      · exact .inl hab
      · exact .inl hbc
      · exact .inr ⟨rfl, bytesLt_trans hst htu⟩
  | [], [], _, h, _ | _ :: _, [], _, h, _ | _, _ :: _, [], _, h => by simp [bytesLt] at h

theorem bytesLt_trichotomy :
    ∀ s t, bytesLt s t ∨ s = t ∨ bytesLt t s
  | [], [] => .inr (.inl rfl)
  | [], _ :: _ => .inl rfl
  | _ :: _, [] => .inr (.inr rfl)
  | a :: s, b :: t => by
      simp only [bytesLt, Bool.or_eq_true, decide_eq_true_eq, Bool.and_eq_true,
        List.cons.injEq]
      rcases Nat.lt_trichotomy a.toNat b.toNat with h | h | h
      · exact .inl (.inl h)
      · have hab : a = b := UInt8.toNat.inj h
        subst hab
        rcases bytesLt_trichotomy s t with h' | h' | h'
        · exact .inl (.inr ⟨rfl, h'⟩)
        · exact .inr (.inl ⟨rfl, h'⟩)
        · exact .inr (.inr (.inr ⟨rfl, h'⟩))
      · exact .inr (.inr (.inl h))

theorem bytesLt_asymm
    {s t : Bytes}
    (h : bytesLt s t) :
    bytesLt t s = false := by
  cases hts : bytesLt t s
  · rfl
  · simpa using bytesLt_trans h hts

/-! ## Orders from strict orders

Rust sorts with `Ord`; each order used here is a strict total order `lt` given as a `Bool`
function, and `sort` orders by `fun a b => lt b a = false`. -/

section StrictOrder

variable {β γ : Type}

/-- A strict total order given as a `Bool` function. -/
structure StrictOrd (lt : β → β → Bool) : Prop where
  irrefl : ∀ a, lt a a = false
  trans : ∀ {a b c}, lt a b → lt b c → lt a c
  trichotomy : ∀ a b, lt a b ∨ a = b ∨ lt b a

namespace StrictOrd

variable {lt : β → β → Bool} (o : StrictOrd lt)
include o

theorem asymm
    {a b : β}
    (h : lt a b) :
    lt b a = false := by
  cases hba : lt b a
  · rfl
  · simpa [o.irrefl] using o.trans h hba

theorem le_total
    (a b : β) :
    lt b a = false ∨ lt a b = false := by
  rcases o.trichotomy a b with h | rfl | h
  · exact .inl (o.asymm h)
  · exact .inl (o.irrefl a)
  · exact .inr (o.asymm h)

theorem le_trans
    {a b c : β}
    (hab : lt b a = false)
    (hbc : lt c b = false) :
    lt c a = false := by
  rcases o.trichotomy a b with h | rfl | h
  · cases hca : lt c a
    · rfl
    · simp [o.trans hca h] at hbc
  · exact hbc
  · simp [h] at hab

theorem le_antisymm
    {a b : β}
    (hab : lt b a = false)
    (hba : lt a b = false) :
    a = b := by
  rcases o.trichotomy a b with h | h | h
  · simp [h] at hba
  · exact h
  · simp [h] at hab

/-- The order of the images under an injective map. -/
theorem comap
    {f : γ → β}
    (hf : Function.Injective f) :
    StrictOrd fun a b => lt (f a) (f b) :=
  ⟨fun _ => o.irrefl _, o.trans, fun a b => (o.trichotomy (f a) (f b)).imp_right (.imp_left (@hf a b))⟩

end StrictOrd

/-- The lexicographic order on pairs, from strict orders on each component. -/
def lexLt [DecidableEq β] (lt₁ : β → β → Bool) (lt₂ : γ → γ → Bool) (a b : β × γ) : Bool :=
  lt₁ a.1 b.1 || (a.1 = b.1 && lt₂ a.2 b.2)

/-- The lexicographic order of two strict total orders is one. -/
theorem StrictOrd.lex
    [DecidableEq β] {lt₁ : β → β → Bool} {lt₂ : γ → γ → Bool}
    (o₁ : StrictOrd lt₁)
    (o₂ : StrictOrd lt₂) :
    StrictOrd (lexLt lt₁ lt₂) where
  irrefl a := by simp [lexLt, o₁.irrefl, o₂.irrefl]
  trans {a b c} hab hbc := by
    simp only [lexLt, Bool.or_eq_true, Bool.and_eq_true, decide_eq_true_eq] at hab hbc ⊢
    rcases hab with hab | ⟨hab, hab'⟩ <;> rcases hbc with hbc | ⟨hbc, hbc'⟩
    · exact .inl (o₁.trans hab hbc)
    · exact .inl (hbc ▸ hab)
    · exact .inl (hab ▸ hbc)
    · exact .inr ⟨hab.trans hbc, o₂.trans hab' hbc'⟩
  trichotomy a b := by
    obtain ⟨a₁, a₂⟩ := a
    obtain ⟨b₁, b₂⟩ := b
    simp only [lexLt, Bool.or_eq_true, Bool.and_eq_true, decide_eq_true_eq, Prod.mk.injEq]
    rcases o₁.trichotomy a₁ b₁ with h | rfl | h
    · exact .inl (.inl h)
    · rcases o₂.trichotomy a₂ b₂ with h | rfl | h
      · exact .inl (.inr ⟨rfl, h⟩)
      · exact .inr (.inl ⟨rfl, rfl⟩)
      · exact .inr (.inr (.inr ⟨rfl, h⟩))
    · exact .inr (.inr (.inl h))

/-- `<` on `usize`. -/
theorem natLt_strictOrd :
    StrictOrd fun m n : Nat => decide (m < n) :=
  ⟨by simp, by simp only [decide_eq_true_eq]; omega, by simp only [decide_eq_true_eq]; omega⟩

end StrictOrder

theorem bytesLt_strictOrd :
    StrictOrd bytesLt :=
  ⟨bytesLt_irrefl, bytesLt_trans, bytesLt_trichotomy⟩

/-- `a ≤ b` in the order of byte slices. -/
def BytesLe (a b : Bytes) : Prop := bytesLt b a = false

instance : DecidableRel BytesLe := fun a b => inferInstanceAs (Decidable (bytesLt b a = false))

instance : IsTotal Bytes BytesLe :=
  ⟨bytesLt_strictOrd.le_total⟩

instance : IsTrans Bytes BytesLe :=
  ⟨fun _ _ _ => bytesLt_strictOrd.le_trans⟩

instance : IsAntisymm Bytes BytesLe :=
  ⟨fun _ _ => bytesLt_strictOrd.le_antisymm⟩

/-! ## Decimal numbers -/

/-- The digits of `n`, most significant first, with `fuel` bounding the recursion. -/
def decimalGo : Nat → Nat → Bytes
  | 0, n => [(48 + n % 10).toUInt8]
  | fuel + 1, n => (if n < 10 then [] else decimalGo fuel (n / 10)) ++ [(48 + n % 10).toUInt8]

/-- `{}` of an unsigned integer: its decimal digits, most significant first. -/
def decimal (n : Nat) : Bytes := decimalGo n n

/-- Any fuel of at least `n` gives the digits of `n`. -/
theorem decimalGo_fuel :
    ∀ {f g n : Nat}, n ≤ f → n ≤ g → decimalGo f n = decimalGo g n
  | 0, 0, _, _, _ => rfl
  | 0, _ + 1, n, hf, _ => by
      obtain rfl : n = 0 := by omega
      rfl
  | _ + 1, 0, n, _, hg => by
      obtain rfl : n = 0 := by omega
      rfl
  | f + 1, g + 1, n, hf, hg => by
      simp only [decimalGo]
      split
      · rfl
      · rw [decimalGo_fuel (f := f) (g := g) (by omega) (by omega)]

theorem decimal_eq
    (n : Nat) :
    decimal n = (if n < 10 then [] else decimal (n / 10)) ++ [(48 + n % 10).toUInt8] := by
  cases n with
  | zero => rfl
  | succ m =>
      simp only [decimal, decimalGo]
      split
      · rfl
      · rw [decimalGo_fuel (f := m) (g := (m + 1) / 10) (by omega) (by omega)]

/-- An ASCII digit. -/
def isDigit (b : UInt8) : Bool := 48 ≤ b && b ≤ 57

theorem isDigit_iff
    (b : UInt8) :
    isDigit b ↔ 48 ≤ b.toNat ∧ b.toNat ≤ 57 := by
  simp [isDigit, UInt8.le_def, BitVec.le_def, UInt8.toNat]

@[simp] theorem toNat_toUInt8
    {n : Nat}
    (h : n < 256) :
    n.toUInt8.toNat = n := by
  simp [Nat.toUInt8, UInt8.toNat, UInt8.ofNat, Nat.mod_eq_of_lt h]

/-- The value of a string of ASCII digits. -/
def digitsValue (s : Bytes) : Nat := s.foldl (fun acc b => 10 * acc + (b.toNat - 48)) 0

/-- A `usize` of the 64-bit targets git-cinnabar is built for. -/
abbrev Usize := Fin (2 ^ 64)

/-- `usize::from_str` on a 64-bit target, through `FromBytes` (`util.rs`): an optional `+`,
then at least one decimal digit, and a value that fits. -/
def usizeFromBytes (s : Bytes) : Option Usize :=
  let digits := if s.head? = some 43 then s.tail else s
  if digits ≠ [] ∧ digits.all isDigit then
    if h : digitsValue digits < 2 ^ 64 then some ⟨digitsValue digits, h⟩ else none
  else none

theorem decimal_ne_nil
    (n : Nat) :
    decimal n ≠ [] := by
  rw [decimal_eq]
  simp

theorem isDigit_of_mem_decimal
    (n : Nat) :
    ∀ b ∈ decimal n, isDigit b := by
  induction n using Nat.strong_induction_on with
  | _ n ih =>
      rw [decimal_eq]
      intro b hb
      simp only [List.mem_append, List.mem_singleton] at hb
      rcases hb with hb | rfl
      · split at hb
        · simp at hb
        · exact ih (n / 10) (by omega) b hb
      · rw [isDigit_iff, toNat_toUInt8 (by omega)]
        omega

theorem digitsValue_decimal
    (n : Nat) :
    digitsValue (decimal n) = n := by
  induction n using Nat.strong_induction_on with
  | _ n ih =>
      have h : ((48 + n % 10).toUInt8).toNat = 48 + n % 10 := toNat_toUInt8 (by omega)
      rw [decimal_eq, digitsValue, List.foldl_append]
      split
      · simp [h]; omega
      · rw [← digitsValue, ih (n / 10) (by omega)]
        simp [h]; omega

theorem usizeFromBytes_decimal
    (n : Usize) :
    usizeFromBytes (decimal n) = some n := by
  have hhead : (decimal n).head? ≠ some 43 := by
    intro hh
    have := isDigit_of_mem_decimal n 43 (List.mem_of_mem_head? hh)
    simp [isDigit] at this
  have hall : (decimal n).all isDigit := List.all_eq_true.mpr (isDigit_of_mem_decimal n)
  simp [usizeFromBytes, hhead, decimal_ne_nil, hall, digitsValue_decimal]

theorem lt_ten_pow_length_decimal
    (n : Nat) :
    n < 10 ^ (decimal n).length := by
  induction n using Nat.strong_induction_on with
  | _ n ih =>
      rw [decimal_eq]
      split
      · simp; omega
      · have := ih (n / 10) (by omega)
        simp only [List.length_append, List.length_singleton, Nat.pow_succ]
        omega

theorem length_decimal_le
    {n e : Nat}
    (h : n < 10 ^ e) :
    (decimal n).length ≤ max e 1 := by
  induction n using Nat.strong_induction_on generalizing e with
  | _ n ih =>
      rw [decimal_eq]
      split
      · simp
      · cases e with
        | zero => simp at h; omega
        | succ e =>
            have := @ih (n / 10) (by omega) e (by rw [Nat.pow_succ] at h; omega)
            simp only [List.length_append, List.length_singleton]
            have : 1 ≤ e := by
              rcases e with _ | e
              · simp at h; omega
              · omega
            omega

/-- More digits only for larger numbers. -/
theorem length_decimal_mono
    {m n : Nat}
    (h : m ≤ n) :
    (decimal m).length ≤ (decimal n).length := by
  have := length_decimal_le (Nat.lt_of_le_of_lt h (lt_ten_pow_length_decimal n))
  have : 1 ≤ (decimal n).length := List.length_pos.mpr (decimal_ne_nil n)
  omega

end GitCinnabar
