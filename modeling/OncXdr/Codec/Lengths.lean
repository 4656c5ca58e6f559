import OncXdr.Codec.Truncation

/-!
# OncXdr.Codec.Lengths — length errors and the padded-length arithmetic

`errors.Is(err, ErrLengthExceedsMax)` and `errors.Is(err, ErrLengthExceedsPlatformLimit)` ask
`LengthError.Is`, through every `FieldError` that wraps the error. The string, slice and map codecs
report the declared maximum (`origMax`). The opaque slice codec hands `DecodeOpaque` the maximum
clamped to `maxInt` and reports what `DecodeOpaque` returns, so on a 32-bit host an unbounded
opaque of `2^31` bytes is "too long" for a declared maximum of `2^32 - 1`
(`opaque_length_exceeds_clamped_max`).

`DecodeOpaque` sizes its buffer `(int(l) + 3) &^ 3` in Go's `int`. On a 32-bit host the lengths
`2^31 - 3 … 2^31 - 1`, which the clamped maximum admits, wrap it negative and `make` panics
(`string_length_pad_wraps`); on a 64-bit host a length word never comes near `maxInt`
(`decodeOpaque_w64_no_panic`). `DecodeFixedOpaque`'s padding `((n + 3) &^ 3) - n` is right for
every `n`: the wrap cancels in the subtraction (`fixedPad_eq_padLen`).
-/

namespace OncXdr

/-! ## `errors.Is` for the length sentinels -/

/-- The two sentinels `LengthError.Is` answers for. -/
inductive LengthKind
  /-- `ErrLengthExceedsMax` -/
  | exceedsMax
  /-- `ErrLengthExceedsPlatformLimit` -/
  | exceedsPlatformLimit

/-- `errors.Is(err, target)` for a length sentinel, on a host whose `int` is `w`: `LengthError.Is`,
reached through `FieldError.Unwrap`. No other error of the engine is, or wraps, a length error; an
error from outside the engine is taken to be neither sentinel. -/
def XdrError.isLength (w : WordSize) (target : LengthKind) : XdrError → Bool
  | .lengthError actual max =>
    match target with
    | .exceedsMax => max < actual
    | .exceedsPlatformLimit => w.maxInt < actual
  | .field u _ => u.isLength w target
  | _ => false

/-- `WithFieldError` leaves what `errors.Is` sees unchanged, at any depth of wrapping. -/
@[simp] theorem isLength_withFieldError (w : WordSize) (target : LengthKind) (err : XdrError)
    (typeName fieldName : String) (note : Option Note) :
    (withFieldError err typeName fieldName note).isLength w target = err.isLength w target := by
  cases err <;> rfl

/-- A program with `type S struct { B []byte }`, `B` tagged `xdr:"opaque"`: `0` is `S`, `1` is
`[]uint8`, `2` is `uint8`. -/
def opaqueFieldProgram : Universe where
  info
    | 0 => ⟨.struct [⟨"B", 1, true, "opaque".toList⟩], "S", false, .none⟩
    | 1 => ⟨.slice 2, "", false, .none⟩
    | 2 => ⟨.scalar .uint8, "uint8", true, .none⟩
    | _ => TypeInfo.invalid
  zero
    | 0 => .struct [.slice []]
    | 1 => .slice []
    | 2 => .uint 0
    | _ => .ref true
  zero_eq t := by rcases t with _ | _ | _ | t <;> rfl
  marshalXDR _ _ := .ok []
  unmarshalXDR _ v inp := .ok (v, inp)

/-- On a 32-bit host `S.B` declares no maximum: its codec keeps `origMax = 2^32 - 1` and checks
against `maxInt = 2^31 - 1`. A received length of `2^31` is within the declared maximum, yet the
error `Decode` returns, wrapped by the field, is `ErrLengthExceedsMax`. -/
theorem opaque_length_exceeds_clamped_max (reflectOnly : Bool) :
    Env.codec ⟨opaqueFieldProgram, .w32, reflectOnly⟩ ⟨1, [XDRTagKind.Noop, XDRTagKind.Opaque]⟩ =
      .ok (.opaqueSliceCodec (2 ^ 31 - 1) maxUint32) ∧
    decode ⟨opaqueFieldProgram, .w32, reflectOnly⟩ 3 0 (.struct [.slice []]) ⟨[0x80, 0, 0, 0], true⟩ =
      .error (.err (.field (.lengthError (2 ^ 31) (2 ^ 31 - 1)) [⟨"S", "B", none⟩])) ∧
    (XdrError.field (.lengthError (2 ^ 31) (2 ^ 31 - 1)) [⟨"S", "B", none⟩]).isLength .w32
      .exceedsMax = true ∧
    2 ^ 31 ≤ maxUint32 := by
  cases reflectOnly <;> exact ⟨rfl, rfl, rfl, by decide⟩

/-! ## The padded length -/

theorem decodeUnsignedInt_lt {inp out : Input} {x : Nat} (h : decodeUnsignedInt inp = .ok (x, out)) :
    x < 2 ^ 32 := by
  unfold decodeUnsignedInt readFull at h
  split_ifs at h with hn
  · cases h
    simpa [List.length_take_of_le hn] using fromBE_lt (inp.rest.take 4)

/-- `DecodeOpaque` panics only in `make`, on a negative padded length. -/
theorem decodeOpaque_eq_panic {w : WordSize} {maxLen : Nat} {inp : Input} {msg : String}
    (h : decodeOpaque w maxLen inp = .error (.panic msg)) :
    ∃ l inp', decodeUnsignedInt inp = .ok (l, inp') ∧ andNot3 (goInt w ((l : Int) + 3)) < 0 := by
  unfold decodeOpaque at h
  split at h
  · cases h
  · dsimp only at h
    split_ifs at h with h₀ h₁ h₂
    · cases h
    · exact ⟨_, _, ‹_›, h₂⟩

/-- On a 64-bit host `DecodeOpaque` never panics: the length word is below `2^32`, so
`int(l) + 3` does not wrap and the padded size is `l` rounded up to a multiple of four. -/
theorem decodeOpaque_w64_no_panic (maxLen : Nat) (inp : Input) (msg : String) :
    decodeOpaque .w64 maxLen inp ≠ .error (.panic msg) := fun h => by
  obtain ⟨l, _, hl, hneg⟩ := decodeOpaque_eq_panic h
  have := decodeUnsignedInt_lt hl
  rw [goInt_of_le .w64 (by omega) (by simp; omega), andNot3_add_three] at hneg
  omega

/-- The 32-bit wrap: a string of the implicit maximum admits the length `2^31 - 1` (the clamped
maximum), `(int(l) + 3) &^ 3` is then `-2^31`, and `Decode` of the four bytes `7F FF FF FF`
panics in `make`. -/
theorem string_length_pad_wraps (reflectOnly : Bool) :
    Env.codec ⟨stringProgram, .w32, reflectOnly⟩ ⟨0, []⟩ =
      .ok (.varStringCodec (2 ^ 31 - 1) maxUint32) ∧
    andNot3 (goInt .w32 ((2 ^ 31 - 1 : Nat) + 3)) = -2 ^ 31 ∧
    decode ⟨stringProgram, .w32, reflectOnly⟩ 1 0 (.string []) ⟨[0x7F, 0xFF, 0xFF, 0xFF], true⟩ =
      .error (.panic "runtime error: makeslice: len out of range") := by
  cases reflectOnly <;> exact ⟨rfl, by decide, rfl⟩

/-- `((n + 3) &^ 3) - n` in Go's `int` is the padding of `n` bytes for every `n`: the two wraps
are multiples of `2^w`, and `&^ 3` sees only the low bits. -/
theorem fixedPad_eq_padLen (w : WordSize) (n : Nat) : fixedPad w n = padLen n := by
  cases w <;> simp only [fixedPad, goInt, andNot3, Int.bmod, padLen, WordSize.bits] <;>
    split_ifs <;> omega

end OncXdr
