import OncXdr.Codec.Run
import OncXdr.Wire.Reads

/-!
# OncXdr.Codec.Truncation — a string cut short inside its body is decoded as a success

`varStringCodec` reads through `DecodeString`, that is `DecodeOpaque`, which drops the error
of its body read. A stream that ends after the length word, or anywhere inside the body,
decodes to a string padded with zero bytes, and the decoder reports no error: the call cannot
be told from one on a complete input. The same holds for every opaque and string layer read
by `DecodeOpaque`, and for `Decode` of a `string` at the top level.
-/

namespace OncXdr

variable (e : Env)

/-- `varStringCodec.Decode`/`decodeUnsafe`, on a value it may set, of a stream that ends inside
the body of a string of length `l` within the maximum. -/
theorem decodeWith_varString_truncated (rec : Key → Path → Value → Input → Except Fail (Value × Input))
    (k : Key) {maxlen origMax l : Nat} {p : Path} (hp : p.assignPanic "SetString" = none)
    (v : Value) (rest : List UInt8) (full : Bool) (hl : 0 < l) (hmax : l ≤ maxlen)
    (hw : l + 3 ≤ e.w.maxInt) (hu : l < 2 ^ 32) (hshort : rest.length < l + padLen l) :
    decodeWith e rec k (.varStringCodec maxlen origMax) p v ⟨be 4 l ++ rest, full⟩ =
      .ok (.string ((rest ++ List.replicate (l + padLen l) 0).take l), ⟨[], false⟩) := by
  simp only [decodeWith, decodeString, decodeOpaque_truncated e.w rest full hl hmax hw hu hshort,
    setAfter_ok hp]

/-- The codec of an untagged `string`. -/
theorem codec_string {t : TypeId} (ht : (e.U.info t).shape = .scalar .string) :
    e.codec ⟨t, []⟩ = .ok (.varStringCodec (clampMax e.w maxUint32) maxUint32) := by
  simp only [Env.codec, buildCodec_base_string e.U e.w ht]
  rfl

/-- `Decode(&x)` for a `string` `x`, on a stream that ends inside the string's body (any
length word `l` the string could have, `int` permitting): a success, the missing bytes zeros. -/
theorem decode_string_truncated {t : TypeId} (ht : (e.U.info t).shape = .scalar .string)
    (fuel : Nat) (x : Value) {l : Nat} (rest : List UInt8) (full : Bool) (hl : 0 < l)
    (hw : l + 3 ≤ e.w.maxInt) (hu : l < 2 ^ 32) (hshort : rest.length < l + padLen l) :
    decode e (fuel + 1) t x ⟨be 4 l ++ rest, full⟩ =
      .ok (.string ((rest ++ List.replicate (l + padLen l) 0).take l), ⟨[], false⟩) := by
  have hc := codec_string e ht
  have hb := buildCodec_base_string e.U e.w ht
  have hmax : l ≤ clampMax e.w maxUint32 := by
    unfold clampMax maxUint32; split <;> omega
  simp only [decode, construct, Key.base, List.not_mem_nil, if_false, hb, List.nil_append]
  rw [decodeAt_of_codec e hc]
  exact decodeWith_varString_truncated e _ _ (Path.assignPanic_settable _) x rest full hl hmax hw hu hshort

/-- A program whose type `0` is `string`. -/
def stringProgram : Universe where
  info t := if t = 0 then ⟨.scalar .string, "string", true, .none⟩ else TypeInfo.invalid
  zero t := if t = 0 then .string [] else .ref true
  zero_eq t := by by_cases h : t = 0 <;> simp [h, zeroOf, kindZero, TypeInfo.invalid]
  marshalXDR _ _ := .ok []
  unmarshalXDR _ v inp := .ok (v, inp)

/-- The stream `00 00 00 05 68 69` ends three bytes into the body of a five-byte string: it
decodes to `"hi\x00\x00\x00"`. -/
theorem decode_string_truncated_hi :
    (stringProgram.info 0).shape = .scalar .string ∧ 0 < 5 ∧ 5 + 3 ≤ WordSize.w64.maxInt ∧
    [0x68, 0x69].length < 5 + padLen 5 ∧
    decode ⟨stringProgram, .w64, false⟩ 1 0 (.string []) ⟨be 4 5 ++ [0x68, 0x69], true⟩ =
      .ok (.string [0x68, 0x69, 0, 0, 0], ⟨[], false⟩) :=
  ⟨rfl, by decide, by simp, by decide,
    decode_string_truncated _ (t := 0) rfl 0 _ [0x68, 0x69] true (by decide) (by simp) (by decide)
      (by decide)⟩

/-- `"abc"` encodes as `00 00 00 03 61 62 63 00`; its strict prefix `00 00 00 03` decodes, in
either build, to the string `"\x00\x00\x00"` with no error. -/
theorem string_prefix_decodes (w : WordSize) (reflectOnly : Bool) :
    encode ⟨stringProgram, w, reflectOnly⟩ 1 0 (.string [0x61, 0x62, 0x63]) =
      .ok [0, 0, 0, 3, 0x61, 0x62, 0x63, 0] ∧
    decode ⟨stringProgram, w, reflectOnly⟩ 1 0 (.string []) ⟨[0, 0, 0, 3], true⟩ =
      .ok (.string [0, 0, 0], ⟨[], false⟩) := by
  cases w <;> cases reflectOnly <;> exact ⟨rfl, rfl⟩

end OncXdr
