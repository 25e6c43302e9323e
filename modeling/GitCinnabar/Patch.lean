import GitCinnabar.Extra

/-!
# git-cinnabar: changeset patches

A metadata record may carry a patch that turns the changeset text synthesized from a Git
commit into the original Mercurial text (`store.rs`, `GitChangesetPatch`).  Its textual form
is a NUL-separated list of `start,end,data` triples with `data` percent-encoded; it is read
by `iter`, written by `from_patch_info` and applied by `xdiff::apply`.

**Model.**  `PatchInfo` is the record `{start, end, data}` with `usize` offsets.
`percent_encode(_, NON_ALPHANUMERIC)` and `percent_decode` follow the `percent_encoding`
crate.  `xdiff.rs` is not part of the sources at hand, so `xdiff::apply` is modelled from
the spec (§4.E): a cursor over the original text, `original[cursor..start] ++ data` per
entry, then the rest; a slice out of range panics in Rust and is an error here.

**Results.**
* `iter_fromPatchInfo`: `iter` reads back the encoding of every non-empty patch.
* `xdiffApply_append`: a patch that applies to a text applies to any extension of it,
  and leaves the extension in place.
* `apply_eq_error`: applying a patch fails only on a slice out of range.
-/

namespace GitCinnabar

/-- One entry of a patch: replace `input[start..end]` by `data` (`xdiff::PatchInfo`). -/
structure PatchInfo where
  start : Usize
  stop : Usize
  data : Bytes
deriving DecidableEq

/-- Uppercase hex digit of `d < 16`, as `percent_encode` writes it. -/
def upperHexDigit (d : Nat) : UInt8 := if d < 10 then (48 + d).toUInt8 else (55 + d).toUInt8

/-- An ASCII letter or digit: the bytes `NON_ALPHANUMERIC` leaves alone. -/
def isAsciiAlphanumeric (b : UInt8) : Bool :=
  (48 ≤ b.toNat && b.toNat ≤ 57) || (65 ≤ b.toNat && b.toNat ≤ 90) ||
    (97 ≤ b.toNat && b.toNat ≤ 122)

/-- `percent_encode(data, NON_ALPHANUMERIC)`: every byte but ASCII letters and digits
becomes `%XX`. -/
def percentEncode : Bytes → Bytes
  | [] => []
  | b :: s =>
      if isAsciiAlphanumeric b then b :: percentEncode s
      else 37 :: upperHexDigit (b.toNat / 16) :: upperHexDigit (b.toNat % 16) :: percentEncode s

/-- `percent_decode`: `%` and two hex digits of either case make one byte; any other `%`
stays as it is. -/
def percentDecode : Bytes → Bytes
  | b :: h :: l :: rest =>
      if b = 37 then
        match ObjectId.hexValue h, ObjectId.hexValue l with
        | some x, some y => (16 * x + y).toUInt8 :: percentDecode rest
        | _, _ => b :: percentDecode (h :: l :: rest)
      else b :: percentDecode (h :: l :: rest)
  | b :: s => b :: percentDecode s
  | [] => []

/-- The panic of a slice index out of range. -/
def sliceOutOfRange : String := "range end index out of range for slice"

/-- Modelled from the spec: `xdiff::apply` (`xdiff.rs`, not in src/).  §4.E: "the applier
must track a cursor in the original and emit `original[cursor..start] ++ data`, then advance
cursor to `end`", and the rest of the original after the last entry. -/
def xdiffApply (patch : List PatchInfo) (input : Bytes) : Except String Bytes :=
  go 0 patch
where
  /-- The entries from `cursor` on. -/
  go (cursor : Nat) : List PatchInfo → Except String Bytes
    | [] => if cursor ≤ input.length then .ok (input.drop cursor) else .error sliceOutOfRange
    | p :: ps =>
        if cursor ≤ p.start.val ∧ p.start.val ≤ input.length then
          (go p.stop.val ps).map fun rest =>
            (input.drop cursor).take (p.start.val - cursor) ++ p.data ++ rest
        else .error sliceOutOfRange

namespace GitChangesetPatch

/-- One `start,end,data` triple of `iter`. -/
def parsePart (part : Bytes) : Option PatchInfo :=
  match splitnExact 44 3 part with
  | some [start, stop, data] => do
      let start ← usizeFromBytes start
      let stop ← usizeFromBytes stop
      pure ⟨start, stop, percentDecode data⟩
  | _ => none

/-- `GitChangesetPatch::iter`: the NUL-separated triples, or `None` if one is malformed. -/
def iter (patch : Bytes) : Option (List PatchInfo) := (patch.splitOn 0).mapM parsePart

/-- `GitChangesetPatch::apply`: `None` when `iter` fails, else `xdiff::apply`. -/
def apply (patch input : Bytes) : Except String (Option Bytes) :=
  match iter patch with
  | none => .ok none
  | some entries => (xdiffApply entries input).map some

/-- One triple as `from_patch_info` writes it: `"{},{},{}"`. -/
def partBytes (p : PatchInfo) : Bytes :=
  decimal p.start.val ++ 44 :: (decimal p.stop.val ++ 44 :: percentEncode p.data)

/-- `GitChangesetPatch::from_patch_info`: the triples joined with NUL. -/
def fromPatchInfo (patch : List PatchInfo) : Bytes := joinWith 0 (patch.map partBytes)

end GitChangesetPatch

/-! ## Percent coding -/

theorem toNat_upperHexDigit
    {d : Nat}
    (h : d < 16) :
    (upperHexDigit d).toNat = if d < 10 then 48 + d else 55 + d := by
  unfold upperHexDigit
  split <;> exact toNat_toUInt8 (by omega)

theorem hexValue_upperHexDigit
    {d : Nat}
    (h : d < 16) :
    ObjectId.hexValue (upperHexDigit d) = some d := by
  rw [ObjectId.hexValue, toNat_upperHexDigit h]
  split_ifs <;> first | rfl | (congr 1; omega)

theorem percentDecode_escape
    {h l : UInt8} {x y : Nat}
    (rest : Bytes)
    (hh : ObjectId.hexValue h = some x)
    (hl : ObjectId.hexValue l = some y) :
    percentDecode (37 :: h :: l :: rest) = (16 * x + y).toUInt8 :: percentDecode rest := by
  simp [percentDecode, hh, hl]

theorem percentDecode_cons_of_ne
    {b : UInt8}
    (s : Bytes)
    (hb : b ≠ 37) :
    percentDecode (b :: s) = b :: percentDecode s := by
  match s with
  | h :: l :: rest => simp [percentDecode, hb]
  | [_] => rfl
  | [] => rfl

theorem percentDecode_percentEncode :
    ∀ s : Bytes, percentDecode (percentEncode s) = s
  | [] => rfl
  | b :: s => by
      have hb : b.toNat < 256 := b.toNat_lt_size
      by_cases ha : isAsciiAlphanumeric b
      · have h37 : b ≠ 37 := by rintro rfl; exact absurd ha (by decide)
        rw [percentEncode, if_pos ha, percentDecode_cons_of_ne _ h37, percentDecode_percentEncode s]
      · rw [percentEncode, if_neg ha,
          percentDecode_escape _ (hexValue_upperHexDigit (show b.toNat / 16 < 16 by omega))
            (hexValue_upperHexDigit (show b.toNat % 16 < 16 by omega)),
          percentDecode_percentEncode s, List.cons.injEq]
        refine ⟨UInt8.toNat.inj ?_, rfl⟩
        rw [toNat_toUInt8 (by omega)]
        omega

theorem not_mem_percentEncode_of_not_alphanumeric
    {c : UInt8}
    (hc : isAsciiAlphanumeric c = false)
    (h37 : c ≠ 37)
    (hhex : ObjectId.hexValue c = none) :
    ∀ s : Bytes, c ∉ percentEncode s
  | [] => List.not_mem_nil _
  | b :: s => by
      have hb : b.toNat < 256 := b.toNat_lt_size
      unfold percentEncode
      split
      · next hab =>
          rw [List.mem_cons, not_or]
          exact ⟨fun h => by rw [h] at hc; simp [hc] at hab,
            not_mem_percentEncode_of_not_alphanumeric hc h37 hhex s⟩
      · simp only [List.mem_cons, not_or]
        refine ⟨h37, fun h => ?_, fun h => ?_, not_mem_percentEncode_of_not_alphanumeric hc h37 hhex s⟩
        · simp [h, hexValue_upperHexDigit (show b.toNat / 16 < 16 by omega)] at hhex
        · simp [h, hexValue_upperHexDigit (show b.toNat % 16 < 16 by omega)] at hhex

/-! ## Reading back the encoding -/

theorem not_mem_decimal
    {c : UInt8}
    (hc : isDigit c = false)
    (n : Nat) :
    c ∉ decimal n := fun h => by simp [isDigit_of_mem_decimal n c h] at hc

namespace GitChangesetPatch

theorem parsePart_partBytes
    (p : PatchInfo) :
    parsePart (partBytes p) = some p := by
  have h1 : (44 : UInt8) ∉ decimal p.start.val := not_mem_decimal (by decide) _
  have h2 : (44 : UInt8) ∉ decimal p.stop.val := not_mem_decimal (by decide) _
  simp [parsePart, partBytes, splitnExact_three_append _ _ _ h1 h2, usizeFromBytes_decimal,
    percentDecode_percentEncode]

theorem not_mem_partBytes
    (p : PatchInfo) :
    (0 : UInt8) ∉ partBytes p := by
  simp only [partBytes, List.mem_append, List.mem_cons, not_or]
  exact ⟨not_mem_decimal (by decide) _, by decide, not_mem_decimal (by decide) _, by decide,
    not_mem_percentEncode_of_not_alphanumeric (by decide) (by decide) (by decide) _⟩

theorem mapM_parsePart :
    ∀ patch : List PatchInfo, (patch.map partBytes).mapM parsePart = some patch
  | [] => rfl
  | p :: ps => by
      simp only [List.map_cons, List.mapM_cons, parsePart_partBytes, mapM_parsePart ps]
      rfl

/-- The NUL-separated parts of a non-empty patch are its triples. -/
theorem splitOn_fromPatchInfo
    {patch : List PatchInfo}
    (h : patch ≠ []) :
    (fromPatchInfo patch).splitOn 0 = patch.map partBytes :=
  splitOn_joinWith (fun x hx => by
    obtain ⟨p, -, rfl⟩ := List.mem_map.mp hx
    exact not_mem_partBytes p) (by simpa using h)

/-- `iter` reads back `from_patch_info` of a non-empty patch. -/
theorem iter_fromPatchInfo
    {patch : List PatchInfo}
    (h : patch ≠ []) :
    iter (fromPatchInfo patch) = some patch := by
  rw [iter, splitOn_fromPatchInfo h, mapM_parsePart]

/-- A patch of one entry whose data holds NUL, `,` and `%`. -/
theorem iter_fromPatchInfo_escapes :
    [(⟨3, 5, [0, 44, 37, 0xFF]⟩ : PatchInfo)] ≠ [] ∧
      iter (fromPatchInfo [⟨3, 5, [0, 44, 37, 0xFF]⟩]) = some [⟨3, 5, [0, 44, 37, 0xFF]⟩] :=
  ⟨List.cons_ne_nil _ _, iter_fromPatchInfo (List.cons_ne_nil _ _)⟩

end GitChangesetPatch

/-! ## Applying a patch -/

/-- Entries that stay inside a text stay inside any extension of it. -/
theorem xdiffApply_go_append
    {input z out : Bytes} :
    ∀ {cursor : Nat} {patch : List PatchInfo},
      xdiffApply.go input cursor patch = .ok out →
      xdiffApply.go (input ++ z) cursor patch = .ok (out ++ z)
  | cursor, [], h => by
      unfold xdiffApply.go at h ⊢
      split at h
      · next hc =>
          cases h
          simp [List.drop_append_of_le_length hc, show cursor ≤ input.length + z.length by omega]
      · cases h
  | cursor, p :: ps, h => by
      unfold xdiffApply.go at h ⊢
      split at h
      · next hc =>
          cases hgo : xdiffApply.go input p.stop.val ps with
          | error e => simp [hgo, Except.map] at h
          | ok rest =>
              simp only [hgo, Except.map, Except.ok.injEq] at h
              subst h
              have hz : (input ++ z).drop cursor = input.drop cursor ++ z :=
                List.drop_append_of_le_length (by omega)
              simp only [List.length_append, show cursor ≤ p.start.val ∧
                p.start.val ≤ input.length + z.length by omega, and_self, if_true,
                xdiffApply_go_append hgo, Except.map, hz]
              rw [List.take_append_of_le_length (by simp; omega)]
              simp
      · cases h

/-- A patch that applies to `input` applies to `input ++ z` and keeps `z` at the end. -/
theorem xdiffApply_append
    {patch : List PatchInfo} {input out : Bytes}
    (z : Bytes)
    (h : xdiffApply patch input = .ok out) :
    xdiffApply patch (input ++ z) = .ok (out ++ z) :=
  xdiffApply_go_append h

/-- `xdiff::apply` fails only on an entry out of range. -/
theorem xdiffApply_go_eq_error
    {input : Bytes} {err : String} :
    ∀ {cursor : Nat} {patch : List PatchInfo},
      xdiffApply.go input cursor patch = .error err → err = sliceOutOfRange
  | cursor, [], h => by
      unfold xdiffApply.go at h
      split at h
      · cases h
      · exact (Except.error.inj h).symm
  | cursor, p :: ps, h => by
      unfold xdiffApply.go at h
      split at h
      · cases hgo : xdiffApply.go input p.stop.val ps with
        | error e =>
            simp only [hgo, Except.map, Except.error.injEq] at h
            exact h ▸ xdiffApply_go_eq_error hgo
        | ok rest =>
            simp only [hgo, Except.map] at h
            cases h
      · exact (Except.error.inj h).symm

/-- `GitChangesetPatch::apply` fails only on an entry out of range. -/
theorem GitChangesetPatch.apply_eq_error
    {patch input : Bytes} {err : String}
    (h : GitChangesetPatch.apply patch input = .error err) :
    err = sliceOutOfRange := by
  unfold GitChangesetPatch.apply at h
  split at h
  · cases h
  · next entries _ =>
      cases hx : xdiffApply entries input with
      | error e =>
          simp only [hx, Except.map, Except.error.injEq] at h
          exact h ▸ xdiffApply_go_eq_error hx
      | ok t =>
          simp only [hx, Except.map] at h
          cases h

/-- The empty patch leaves the text as it is. -/
@[simp] theorem xdiffApply_nil
    (input : Bytes) :
    xdiffApply [] input = .ok input := by
  simp [xdiffApply, xdiffApply.go]

end GitCinnabar
