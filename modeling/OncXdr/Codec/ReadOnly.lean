import OncXdr.Codec.Run
import OncXdr.Wire.Reads

/-!
# OncXdr.Codec.ReadOnly — values reached through unexported fields

`reflect` marks a value reached through an unexported field read-only, and refuses to `Set`
it. Two codec paths run into that:

* in the `nounsafe` build every primitive `Decode` ends with a `Set…` on its value, so a
  struct with an unexported field of a primitive type cannot be decoded at all
  (`decodeAt_unexported_field`), although it encodes; the default build writes the field
  through its address and decodes it;
* `opaqueArrayCodec.Encode` copies an array it cannot address into a fresh one with
  `Set(v)`, which refuses a read-only `v`: `Encode(v)` of a struct with an unexported opaque
  array panics (`encodeAt_unexported_opaque_array`), in either build, though `Decode` fills
  that field and `Encode(&v)` writes it.
-/

namespace OncXdr

variable (e : Env)

/-! ## Setting a read-only value -/

/-- A read-only value cannot be set: the call panics, whatever the read gave (unless the read
itself ran out of fuel, which no read does). -/
theorem setAfter_readOnly (m : String) (addr : Bool) {r : Except Fail (Value × Input)}
    (hr : r ≠ .error .outOfFuel) :
    ∃ msg, setAfter m (.reflect addr true) r = .error (.panic msg) := by
  unfold setAfter
  split
  · exact ⟨_, rfl⟩
  · exact absurd rfl hr
  · exact ⟨_, rfl⟩
  · simp [Path.assignPanic] at *

theorem readAs_ne_outOfFuel {α : Type} (f : α → Value) (r : Except XdrError (α × Input)) :
    readAs f r ≠ .error .outOfFuel := by
  unfold readAs; split <;> simp

/-- The codecs whose `Decode` reads, then sets its value with a `Set…` method. -/
def Codec.setsAfterRead : Codec → Bool
  | .boolCodec | .intCodec _ | .uintCodec _ | .hyperCodec | .uhyperCodec | .floatCodec
  | .doubleCodec | .fixedStringCodec _ | .varStringCodec .. => true
  | _ => false

/-- Such a codec, given a read-only value, panics. -/
theorem decodeWith_readOnly (rec : Key → Path → Value → Input → Except Fail (Value × Input))
    (k : Key) {c : Codec} (hc : c.setsAfterRead = true) (addr : Bool) (v : Value) (inp : Input) :
    ∃ msg, decodeWith e rec k c (.reflect addr true) v inp = .error (.panic msg) := by
  cases c <;> simp only [Codec.setsAfterRead, Bool.false_eq_true] at hc <;> simp only [decodeWith] <;>
    apply setAfter_readOnly <;> (try exact readAs_ne_outOfFuel _ _)
  · intro h
    cases hd : decodeFixedString e.w _ inp with
    | error f => rw [hd] at h; cases h; exact decodeFixedOpaque_ne_outOfFuel _ _ _ hd
    | ok r => rw [hd] at h; cases h
  · intro h
    split at h <;> simp_all [decodeString, decodeOpaque_ne_outOfFuel]

/-- In the `nounsafe` build, decoding into a struct whose first field is unexported and
decoded by a primitive codec panics: the field's value is read-only. -/
theorem decodeAt_unexported_field (he : e.reflectOnly = true) {n : Nat} {k : Key} {name : String}
    {f : FieldRec} {fs : List FieldRec} (hk : e.codec k = .ok (.structCodec name (f :: fs)))
    (hexp : e.exported k.type f.index = false) {c : Codec} (hf : e.codec f.key = .ok c)
    (hc : c.setsAfterRead = true) (addr ro : Bool) (v : Value) (inp : Input) :
    ∃ msg, decodeAt e (n + 2) k (.reflect addr ro) v inp = .error (.panic msg) := by
  obtain ⟨msg, hm⟩ := decodeWith_readOnly e (decodeAt e n) f.key hc addr
    (v.fields.getD f.index default) inp
  refine ⟨msg, ?_⟩
  rw [decodeAt_of_codec e hk]
  simp only [decodeWith, he, Bool.not_true, Bool.and_false, Bool.false_eq_true, if_false,
    Env.structPath_of_reflectOnly e he, Path.field, decodeFields]
  simp only [hexp, Bool.not_false, Bool.or_true]
  rw [decodeAt_of_codec e hf, hm]
  rfl

/-- A program with `type T struct { x int32 }`: `0` is `T`, `1` is `int32`. -/
def unexportedIntProgram : Universe where
  info
    | 0 => ⟨.struct [⟨"x", 1, false, []⟩], "T", false, .none⟩
    | 1 => ⟨.scalar .int32, "int32", true, .none⟩
    | _ => TypeInfo.invalid
  zero
    | 0 => .struct [.int 0]
    | 1 => .int 0
    | _ => .ref true
  zero_eq t := by rcases t with _ | _ | t <;> rfl
  marshalXDR _ _ := .ok []
  unmarshalXDR _ v inp := .ok (v, inp)

/-- `T`'s field `x` is unexported and an `int32`: decoding into `T` panics in the `nounsafe`
build. -/
theorem decodeAt_unexported_int32 :
    Env.exported ⟨unexportedIntProgram, .w64, true⟩ 0 0 = false ∧
    ∃ msg, decodeAt ⟨unexportedIntProgram, .w64, true⟩ 2 ⟨0, []⟩ (.reflect true false) (.struct [.int 0])
      ⟨[0, 0, 0, 1], true⟩ = .error (.panic msg) :=
  have hk : Env.codec ⟨unexportedIntProgram, .w64, true⟩ ⟨0, []⟩ =
      .ok (.structCodec "T" [⟨0, "x", ⟨1, []⟩⟩]) := rfl
  ⟨rfl, decodeAt_unexported_field _ rfl hk rfl (c := .intCodec 32) rfl rfl true false _ _⟩

/-- `T{x: 1}` encodes as `00 00 00 01` in the `nounsafe` build, and decoding those bytes into
a zero `T` panics; the default build decodes them to `T{x: 1}`. -/
theorem unexported_field_roundtrip_fails (w : WordSize) :
    encode ⟨unexportedIntProgram, w, true⟩ 3 0 (.struct [.int 1]) = .ok [0, 0, 0, 1] ∧
    decode ⟨unexportedIntProgram, w, true⟩ 3 0 (.struct [.int 0]) ⟨[0, 0, 0, 1], true⟩ =
      .error (.panic "reflect: reflect.Value.SetInt using value obtained using unexported field") ∧
    decode ⟨unexportedIntProgram, w, false⟩ 3 0 (.struct [.int 0]) ⟨[0, 0, 0, 1], true⟩ =
      .ok (.struct [.int 1], ⟨[], true⟩) := by
  cases w <;> exact ⟨rfl, rfl, rfl⟩

/-! ## Copying a read-only array -/

/-- `Encode` of a struct that is not addressable, whose first field is an unexported opaque
array: the array is copied with `Set`, which panics on the read-only field. -/
theorem encodeAt_unexported_opaque_array {n : Nat} {k : Key} {name : String} {f : FieldRec}
    {fs : List FieldRec} (hk : e.codec k = .ok (.structCodec name (f :: fs)))
    (hexp : e.exported k.type f.index = false) {len : Nat}
    (hf : e.codec f.key = .ok (.opaqueArrayCodec len)) (ro : Bool) (v : Value) :
    encodeAt e (n + 2) k (.reflect false ro) v = .error (.panic setExportedPanic) := by
  rw [encodeAt_of_codec e hk]
  simp only [encodeWith, Env.structPath, Path.field, hexp, Bool.not_false, Bool.or_true,
    encodeEach_cons]
  rw [encodeAt_of_codec e hf]
  simp [encodeWith, Except.mapError, Fail.withField, bind, Except.bind]

/-- A program with `type T struct { a [4]byte }`, `a` tagged `xdr:"opaque"`: `0` is `T`, `1` is
`[4]uint8`, `2` is `uint8`, `3` is `*T`. -/
def unexportedOpaqueProgram : Universe where
  info
    | 0 => ⟨.struct [⟨"a", 1, false, "opaque".toList⟩], "T", false, .none⟩
    | 1 => ⟨.array 4 2, "", false, .none⟩
    | 2 => ⟨.scalar .uint8, "uint8", true, .none⟩
    | 3 => ⟨.ptr 0, "", false, .none⟩
    | _ => TypeInfo.invalid
  zero
    | 0 => .struct [.array (List.replicate 4 (.uint 0))]
    | 1 => .array (List.replicate 4 (.uint 0))
    | 2 => .uint 0
    | 3 => .ptr none
    | _ => .ref true
  zero_eq t := by rcases t with _ | _ | _ | _ | t <;> rfl
  marshalXDR _ _ := .ok []
  unmarshalXDR _ v inp := .ok (v, inp)

/-- `T`'s field `a` is an unexported `[4]byte` opaque: `Encode(v)` of any `T` panics. -/
theorem encodeAt_unexported_opaque_bytes :
    Env.exported ⟨unexportedOpaqueProgram, .w64, false⟩ 0 0 = false ∧
    encodeAt ⟨unexportedOpaqueProgram, .w64, false⟩ 2 ⟨0, []⟩ (.reflect false false)
      (.struct [.array [.uint 1, .uint 2, .uint 3, .uint 4]]) = .error (.panic setExportedPanic) :=
  have hk : Env.codec ⟨unexportedOpaqueProgram, .w64, false⟩ ⟨0, []⟩ =
      .ok (.structCodec "T" [⟨0, "a", ⟨1, [XDRTagKind.Noop, XDRTagKind.Opaque]⟩⟩]) := rfl
  ⟨rfl, encodeAt_unexported_opaque_array _ hk rfl rfl false _⟩

/-- The bytes `01 02 03 04` decode to `T{a: [4]byte{1, 2, 3, 4}}`, reading them all; encoding
that value with `Encode(v)` panics, while `Encode(&v)` writes the four bytes back. -/
theorem unexported_opaque_reencode_fails (w : WordSize) (reflectOnly : Bool) :
    decode ⟨unexportedOpaqueProgram, w, reflectOnly⟩ 3 0 (.struct [.array (List.replicate 4 (.uint 0))])
        ⟨[1, 2, 3, 4], true⟩ =
      .ok (.struct [.array [.uint 1, .uint 2, .uint 3, .uint 4]], ⟨[], true⟩) ∧
    encode ⟨unexportedOpaqueProgram, w, reflectOnly⟩ 3 0
        (.struct [.array [.uint 1, .uint 2, .uint 3, .uint 4]]) =
      .error (.panic setExportedPanic) ∧
    encode ⟨unexportedOpaqueProgram, w, reflectOnly⟩ 4 3
        (.ptr (some (.struct [.array [.uint 1, .uint 2, .uint 3, .uint 4]]))) =
      .ok [1, 2, 3, 4] := by
  cases w <;> cases reflectOnly <;> exact ⟨rfl, rfl, rfl⟩

end OncXdr
