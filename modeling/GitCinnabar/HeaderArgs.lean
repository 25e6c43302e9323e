import GitCinnabar.Patch

/-!
# git-cinnabar: command arguments in HTTP headers

`HgHttpConnection::start_command_request` (`hg_connect_http.rs`) sends the arguments of a
command in `X-HgArg-N` headers when the server advertises the `httpheader` capability, a
byte budget `B`: it form-urlencodes them into one string and cuts that, left to right,
into header values of at most `B - len("X-HgArg-N") - len(": ")` bytes.

**Model.**  `usize` arithmetic is that of a release build on a 64-bit target, where a
subtraction wraps modulo `2^64`.  The loop runs on an explicit fuel, `none` being the fuel
running out; `argHeaders` gives it a round per byte of the string and `10^B` more, for the
rounds in which `B - len(name) - 2` is zero and nothing is consumed.
`form_urlencoded::Serializer` of the `url` crate is modelled on the bytes it writes.

**Results.**
* `chunkArgs_spec`: when the budget leaves room for a byte after the longest header name
  the loop can reach, it ends within as many rounds as the string has bytes, and the
  values are non-empty, make up the string in header order, and fit their lines in `B`.
* `argHeaders_spec`: the same for the headers `start_command_request` sends.
* `argHeaders_small_budget`: a budget that leaves no room for the name of the tenth header.
* `chunkArgs_total`, `argHeaders_total`: whatever the budget, the loop ends, and the values
  make up the form-urlencoded arguments in header order.
-/

namespace GitCinnabar

/-- `a - b` on `usize` in a release build: modulo `2^64`. -/
def usizeSub (a b : Nat) : Nat := (a + (2 ^ 64 - b)) % 2 ^ 64

theorem usizeSub_of_le
    {a b : Nat}
    (hb : b ≤ a)
    (ha : a < 2 ^ 64) :
    usizeSub a b = a - b := by
  unfold usizeSub
  rw [show a + (2 ^ 64 - b) = (a - b) + 2 ^ 64 by omega, Nat.add_mod_right,
    Nat.mod_eq_of_lt (by omega)]

/-- A byte that `form_urlencoded::byte_serialize` keeps: ASCII letters and digits and
`*-._`. -/
def isFormUnreserved (b : UInt8) : Bool :=
  isAsciiAlphanumeric b || b = 42 || b = 45 || b = 46 || b = 95

/-- `form_urlencoded::byte_serialize` of one byte: kept, `+` for a space, else `%XX`. -/
def formByte (b : UInt8) : Bytes :=
  if isFormUnreserved b then [b]
  else if b = 32 then [43]
  else [37, upperHexDigit (b.toNat / 16), upperHexDigit (b.toNat % 16)]

/-- `append_pair` for each argument, then `finish()`: `name=value` pairs joined by `&`. -/
def formUrlencoded (args : List (Bytes × Bytes)) : Bytes :=
  joinWith 38 (args.map fun p => p.1.flatMap formByte ++ 61 :: p.2.flatMap formByte)

/-- `format!("X-HgArg-{}", num)`. -/
def headerName (num : Nat) : Bytes := ascii "X-HgArg-" ++ decimal num

@[simp] theorem length_headerName
    (num : Nat) :
    (headerName num).length = 8 + (decimal num).length := by
  simp [headerName, ascii]
  omega

/-- The loop `while !args.is_empty()` of `start_command_request`, from header number `num`
on, for at most `fuel` rounds: the headers it pushes. -/
def chunkArgs (httpheader : Nat) : Nat → Nat → Bytes → Option (List (Bytes × Bytes))
  | _, _, [] => some []
  | 0, _, _ :: _ => none
  | fuel + 1, num, a :: r =>
      let k := min (a :: r).length (usizeSub (usizeSub httpheader (headerName num).length) 2)
      (chunkArgs httpheader fuel (num + 1) ((a :: r).drop k)).map
        ((headerName num, (a :: r).take k) :: ·)

/-- The `X-HgArg-N` headers of `start_command_request`: the arguments go in headers when
the budget is positive and there are arguments, and in the query string otherwise. -/
def argHeaders (httpheader : Nat) (args : List (Bytes × Bytes)) : Option (List (Bytes × Bytes)) :=
  if 0 < httpheader ∧ args ≠ [] then
    chunkArgs httpheader ((formUrlencoded args).length + 10 ^ httpheader) 1 (formUrlencoded args)
  else some []

@[simp] theorem chunkArgs_nil
    (httpheader fuel num : Nat) :
    chunkArgs httpheader fuel num [] = some [] := by
  cases fuel <;> rfl

/-- One round of the loop. -/
theorem chunkArgs_cons
    (httpheader fuel num : Nat) (args : Bytes)
    (hargs : args ≠ [])
    {k : Nat}
    (hk : min args.length (usizeSub (usizeSub httpheader (headerName num).length) 2) = k) :
    chunkArgs httpheader (fuel + 1) num args =
      (chunkArgs httpheader fuel (num + 1) (args.drop k)).map
        ((headerName num, args.take k) :: ·) := by
  obtain ⟨a, r, rfl⟩ := List.exists_cons_of_ne_nil hargs
  rw [chunkArgs.eq_3, hk]

/-- With room for a byte after every header name the loop reaches, the loop ends within as
many rounds as the string has bytes; the values are non-empty, make up the string in the
order of the header numbers, and every line `name: value` fits in the budget. -/
theorem chunkArgs_spec
    {httpheader : Nat}
    (hB : httpheader < 2 ^ 64) :
    ∀ {fuel num : Nat} {args : Bytes}, args.length ≤ fuel →
      11 + (decimal (num + args.length)).length ≤ httpheader →
      ∃ hs, chunkArgs httpheader fuel num args = some hs ∧
        hs.map Prod.fst = (List.range' num hs.length).map headerName ∧
        (hs.map Prod.snd).flatten = args ∧
        ∀ hd ∈ hs, hd.2 ≠ [] ∧ hd.1.length + 2 + hd.2.length ≤ httpheader := by
  intro fuel num args hfuel hroom
  induction fuel generalizing num args with
  | zero =>
      obtain rfl : args = [] := List.eq_nil_of_length_eq_zero (by omega)
      exact ⟨[], chunkArgs_nil .., rfl, rfl, by simp⟩
  | succ fuel ih =>
      cases args with
      | nil => exact ⟨[], chunkArgs_nil .., rfl, rfl, by simp⟩
      | cons a r =>
          have hname : (decimal num).length ≤ (decimal (num + (a :: r).length)).length :=
            length_decimal_mono (by omega)
          have hroom' : (headerName num).length + 3 ≤ httpheader := by
            rw [length_headerName]
            omega
          have hk : usizeSub (usizeSub httpheader (headerName num).length) 2 =
              httpheader - (headerName num).length - 2 := by
            rw [usizeSub_of_le (by omega) hB, usizeSub_of_le (by omega) (by omega)]
          generalize hk' : min (a :: r).length (httpheader - (headerName num).length - 2) = k
          have hk1 : 1 ≤ k := by
            rw [← hk']
            simp only [List.length_cons]
            omega
          have hkle : k ≤ (a :: r).length := hk' ▸ Nat.min_le_left _ _
          have hrest : ((a :: r).drop k).length = (a :: r).length - k := List.length_drop _ _
          have hmono : (decimal (num + 1 + ((a :: r).drop k).length)).length ≤
              (decimal (num + (a :: r).length)).length :=
            length_decimal_mono (by omega)
          obtain ⟨hs, hrun, hnames, hflat, hall⟩ := @ih (num + 1) ((a :: r).drop k)
            (by simp only [List.length_cons] at hrest hfuel hkle ⊢; omega) (by omega)
          refine ⟨(headerName num, (a :: r).take k) :: hs,
            by rw [chunkArgs_cons _ _ _ _ (List.cons_ne_nil a r) (hk ▸ hk'), hrun]; rfl,
            ?_, ?_, ?_⟩
          · simp [hnames, List.range'_succ]
          · simp [hflat]
          · simp only [List.mem_cons, forall_eq_or_imp]
            refine ⟨⟨by simp; omega, ?_⟩, hall⟩
            rw [List.length_take]
            omega

/-- A budget of 11 leaves no byte for `X-HgArg-1` to `X-HgArg-9`, whose values are empty,
and underflows at `X-HgArg-10`, which takes the whole string on a line longer than 11. -/
theorem argHeaders_small_budget :
    argHeaders 11 [(ascii "a", ascii "b")] =
      some ((List.range' 1 9).map (fun n => (headerName n, [])) ++
        [(headerName 10, ascii "a=b")]) ∧
    11 < (headerName 10).length + 2 ∧
    11 < (headerName 10).length + 2 + (ascii "a=b").length :=
  ⟨rfl, by decide, by decide⟩

/-- With a budget of at least 3, a round consumes nothing only when the budget is exactly the
length of the header's name and `": "`. -/
theorem budget_eq_of_chunk_eq_zero
    {httpheader len : Nat}
    (hB : httpheader < 2 ^ 64)
    (hB3 : 3 ≤ httpheader)
    (h : usizeSub (usizeSub httpheader len) 2 = 0) :
    len + 2 = httpheader := by
  unfold usizeSub at h
  omega

/-- With a budget of at least 3 the loop ends once its fuel covers a round per byte and a
round per header number below `10^B`, and the values make up the string in the order of
the header numbers: a round that consumes nothing has a name of `B - 2` bytes, so a number
of fewer than `B` digits. -/
theorem chunkArgs_total
    {httpheader : Nat}
    (hB : httpheader < 2 ^ 64)
    (hB3 : 3 ≤ httpheader) :
    ∀ {fuel num : Nat} {args : Bytes}, args.length + (10 ^ httpheader - num) ≤ fuel →
      ∃ hs, chunkArgs httpheader fuel num args = some hs ∧
        hs.map Prod.fst = (List.range' num hs.length).map headerName ∧
        (hs.map Prod.snd).flatten = args := by
  intro fuel num args hfuel
  induction fuel generalizing num args with
  | zero =>
      obtain rfl : args = [] := List.eq_nil_of_length_eq_zero (by omega)
      exact ⟨[], chunkArgs_nil .., rfl, rfl⟩
  | succ fuel ih =>
      cases args with
      | nil => exact ⟨[], chunkArgs_nil .., rfl, rfl⟩
      | cons a r =>
          generalize hk : min (a :: r).length
            (usizeSub (usizeSub httpheader (headerName num).length) 2) = k
          have hlen : ((a :: r).drop k).length = (a :: r).length - k := List.length_drop _ _
          have hnext : ((a :: r).drop k).length + (10 ^ httpheader - (num + 1)) ≤ fuel := by
            rcases Nat.eq_zero_or_pos k with rfl | hk1
            · have hzero : usizeSub (usizeSub httpheader (headerName num).length) 2 = 0 := by
                simp only [List.length_cons] at hk
                omega
              have hname := budget_eq_of_chunk_eq_zero hB hB3 hzero
              rw [length_headerName] at hname
              have hnum : num < 10 ^ httpheader :=
                calc num < 10 ^ (decimal num).length := lt_ten_pow_length_decimal num
                  _ ≤ 10 ^ httpheader := Nat.pow_le_pow_right (by omega) (by omega)
              simp only [List.drop_zero, List.length_cons] at hfuel ⊢
              omega
            · simp only [List.length_cons] at hlen hfuel ⊢
              omega
          obtain ⟨hs, hrun, hnames, hflat⟩ := ih hnext
          refine ⟨(headerName num, (a :: r).take k) :: hs,
            by rw [chunkArgs_cons _ _ _ _ (List.cons_ne_nil a r) hk, hrun]; rfl, ?_, ?_⟩
          · simp [hnames, List.range'_succ]
          · simp [hflat]

theorem formUrlencoded_ne_nil
    {args : List (Bytes × Bytes)}
    (h : args ≠ []) :
    formUrlencoded args ≠ [] := by
  obtain ⟨p, rest, rfl⟩ := List.exists_cons_of_ne_nil h
  cases rest <;> simp [formUrlencoded]

/-- Whatever the budget, the loop of `start_command_request` ends, and its headers are
`X-HgArg-1`, `X-HgArg-2`, ... whose values make up the form-urlencoded arguments when they go
in headers; there are none otherwise.  Budgets of 1 and 2 underflow at the first header,
which then takes the whole string, shorter than any Rust allocation can be. -/
theorem argHeaders_total
    {httpheader : Nat} {args : List (Bytes × Bytes)}
    (hB : httpheader < 2 ^ 64)
    (hlen : (formUrlencoded args).length < 2 ^ 63) :
    ∃ hs, argHeaders httpheader args = some hs ∧
      hs.map Prod.fst = (List.range' 1 hs.length).map headerName ∧
      (hs.map Prod.snd).flatten =
        (if 0 < httpheader ∧ args ≠ [] then formUrlencoded args else []) ∧
      (¬(0 < httpheader ∧ args ≠ []) → hs = []) := by
  unfold argHeaders
  split
  · next hmode =>
      suffices ∃ hs, chunkArgs httpheader ((formUrlencoded args).length + 10 ^ httpheader) 1
          (formUrlencoded args) = some hs ∧
          hs.map Prod.fst = (List.range' 1 hs.length).map headerName ∧
          (hs.map Prod.snd).flatten = formUrlencoded args by
        obtain ⟨hs, hrun, hnames, hflat⟩ := this
        exact ⟨hs, hrun, hnames, hflat, fun h => absurd hmode h⟩
      rcases Nat.lt_or_ge httpheader 3 with hsmall | hB3
      · obtain ⟨a, r, hs⟩ := List.exists_cons_of_ne_nil (formUrlencoded_ne_nil hmode.2)
        have hname : (headerName 1).length = 9 := by decide
        have hk : min (a :: r).length
            (usizeSub (usizeSub httpheader (headerName 1).length) 2) = (a :: r).length := by
          rw [hname, ← hs]
          unfold usizeSub
          omega
        refine ⟨[(headerName 1, a :: r)], ?_, rfl, by simp [hs]⟩
        rw [hs, show (a :: r).length + 10 ^ httpheader = (r.length + 10 ^ httpheader) + 1 by
          simp only [List.length_cons]; omega, chunkArgs_cons _ _ _ _ (List.cons_ne_nil a r) hk]
        simp
      · exact chunkArgs_total hB hB3 (Nat.add_le_add_left (Nat.sub_le _ _) _)
  · next hmode => exact ⟨[], rfl, rfl, by simp [hmode], fun _ => rfl⟩

end GitCinnabar
