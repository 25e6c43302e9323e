import GitCinnabar.Bytes

/-!
# git-cinnabar: object ids

Mercurial and Git objects are named by 20-byte SHA-1 hashes (`HgObjectId`, `GitObjectId`
and their typed wrappers `HgChangesetId`, `HgManifestId`, `GitChangesetId`, ...).  They are
printed as 40 lowercase hex digits, read back by `FromBytes`, ordered as byte strings and
have a null value, twenty zero bytes.

**Model.**  An `ObjectId` carries its length as a field, so that an id of another length
cannot be built.  `oid.rs`, where `Display` and `from_bytes` live, is not part of the
sources at hand; both are modelled from the spec (§3: "printable as lowercase hex").

**Results.**
* `fromBytes_display`: an id read back from its hex form is the same id.
* `display` writes only hex digits, so it never holds a separator of the formats that
  embed it (`not_mem_display`).
* `null_le`: the null id is the smallest id.
-/

namespace GitCinnabar

/-- A 20-byte object id. -/
structure ObjectId where
  bytes : Bytes
  length_eq : bytes.length = 20
deriving DecidableEq

/-- A Mercurial changeset id. -/
abbrev HgChangesetId := ObjectId

/-- A Mercurial manifest id. -/
abbrev HgManifestId := ObjectId

/-- A Git object id (commit, tree or blob). -/
abbrev GitObjectId := ObjectId

namespace ObjectId

/-- The null id, twenty zero bytes (`HgChangesetId::null()`, `GitObjectId::null()`). -/
def null : ObjectId := ⟨List.replicate 20 0, by simp⟩

/-- Lowercase hex digit of `d < 16`. -/
def hexDigit (d : Nat) : UInt8 := if d < 10 then (48 + d).toUInt8 else (87 + d).toUInt8

/-- The value of a hex digit, either case. -/
def hexValue (b : UInt8) : Option Nat :=
  if 48 ≤ b.toNat ∧ b.toNat ≤ 57 then some (b.toNat - 48)
  else if 97 ≤ b.toNat ∧ b.toNat ≤ 102 then some (b.toNat - 87)
  else if 65 ≤ b.toNat ∧ b.toNat ≤ 70 then some (b.toNat - 55)
  else none

/-- Two lowercase hex digits per byte. -/
def hex : Bytes → Bytes
  | [] => []
  | b :: s => hexDigit (b.toNat / 16) :: hexDigit (b.toNat % 16) :: hex s

/-- The bytes of a string of hex digit pairs. -/
def unhex : Bytes → Option Bytes
  | [] => some []
  | [_] => none
  | h :: l :: s => do
      let a ← hexValue h
      let b ← hexValue l
      let r ← unhex s
      pure ((16 * a + b).toUInt8 :: r)

/-- `Display`: 40 lowercase hex digits. -/
def display (o : ObjectId) : Bytes := hex o.bytes

/-- `FromBytes::from_bytes`: 40 hex digits. -/
def fromBytes (s : Bytes) : Option ObjectId :=
  match unhex s with
  | some b => if h : b.length = 20 then some ⟨b, h⟩ else none
  | none => none

/-- The order of ids, that of their bytes (`derive(Ord)` on `[u8; 20]`). -/
def lt (a b : ObjectId) : Bool := bytesLt a.bytes b.bytes

@[ext] theorem ext
    {a b : ObjectId}
    (h : a.bytes = b.bytes) :
    a = b := by
  cases a
  cases b
  simp_all

theorem toNat_hexDigit
    {d : Nat}
    (h : d < 16) :
    (hexDigit d).toNat = if d < 10 then 48 + d else 87 + d := by
  unfold hexDigit
  split <;> exact toNat_toUInt8 (by omega)

theorem hexValue_hexDigit
    {d : Nat}
    (h : d < 16) :
    hexValue (hexDigit d) = some d := by
  rw [hexValue, toNat_hexDigit h]
  split_ifs <;> first | rfl | (congr 1; omega)

theorem unhex_hex :
    ∀ s : Bytes, unhex (hex s) = some s
  | [] => rfl
  | b :: s => by
      have hb : b.toNat < 256 := b.toNat_lt_size
      simp only [hex, unhex, hexValue_hexDigit (show b.toNat / 16 < 16 by omega),
        hexValue_hexDigit (show b.toNat % 16 < 16 by omega), unhex_hex s, Option.bind_eq_bind,
        Option.some_bind, Option.pure_def, Option.some.injEq, List.cons.injEq, and_true]
      apply UInt8.toNat.inj
      rw [toNat_toUInt8 (by omega)]
      omega

@[simp] theorem fromBytes_display
    (o : ObjectId) :
    fromBytes (display o) = some o := by
  simp [fromBytes, display, unhex_hex, o.length_eq]

@[simp] theorem length_hex :
    ∀ s : Bytes, (hex s).length = 2 * s.length
  | [] => rfl
  | b :: s => by simp [hex, length_hex s]; omega

@[simp] theorem length_display
    (o : ObjectId) :
    (display o).length = 40 := by
  simp [display, o.length_eq]

theorem hexValue_isSome_of_mem_hex
    {c : UInt8} :
    ∀ {s : Bytes}, c ∈ hex s → (hexValue c).isSome
  | b :: s, h => by
      have hb : b.toNat < 256 := b.toNat_lt_size
      simp only [hex, List.mem_cons] at h
      rcases h with rfl | rfl | h
      · simp [hexValue_hexDigit (show b.toNat / 16 < 16 by omega)]
      · simp [hexValue_hexDigit (show b.toNat % 16 < 16 by omega)]
      · exact hexValue_isSome_of_mem_hex h

/-- The hex form holds none of the bytes that are not hex digits: in particular no NUL,
`\n`, space, `,` or `:`. -/
theorem not_mem_display
    {c : UInt8}
    (o : ObjectId)
    (hc : hexValue c = none) :
    c ∉ display o := by
  intro h
  have := hexValue_isSome_of_mem_hex h
  simp [hc] at this

theorem bytesLt_null
    {s : Bytes} :
    ∀ {n : Nat}, s.length = n → s ≠ List.replicate n 0 → bytesLt (List.replicate n 0) s
  | n + 1, h, hne => by
      match s, h with
      | b :: s, h =>
          simp only [List.length_cons, Nat.add_right_cancel_iff] at h
          simp only [List.replicate_succ, bytesLt, Bool.or_eq_true, decide_eq_true_eq,
            Bool.and_eq_true]
          by_cases hb : b = 0
          · subst hb
            exact .inr ⟨rfl, bytesLt_null h (by simpa [List.replicate_succ] using hne)⟩
          · left
            show (0 : UInt8).toNat < b.toNat
            have : b.toNat ≠ 0 := fun h0 => hb (UInt8.toNat.inj h0)
            simp only [UInt8.toNat_zero]
            omega
  | 0, h, hne => by simp_all

/-- The null id is the smallest id. -/
theorem null_le
    (o : ObjectId) :
    o = null ∨ lt null o := by
  by_cases h : o = null
  · exact .inl h
  · refine .inr (bytesLt_null o.length_eq ?_)
    exact fun hb => h (ext hb)

end ObjectId

end GitCinnabar
