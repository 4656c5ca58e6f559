import OncXdr.Codec.Run
import OncXdr.Wire.Reads

/-!
# OncXdr.Codec.OpaqueBytes — opaque layers of `int8`

`ParseTag` accepts `opaque` on a layer of `int8` as well as `uint8`, and the builders make the
same opaque codecs for both. The unsafe methods treat the elements as raw bytes; the
reflective ones go through `Value.Bytes()`, which refuses any element kind but `uint8`. So an
opaque `[N]int8` is written by `Encode(&v)` and makes `Encode(v)` panic; in the `nounsafe`
build it cannot be encoded or decoded at all.
-/

namespace OncXdr

variable (e : Env)

/-- The codec of a pointer type in the default build passes its target's address on, so a
struct behind it is encoded from memory. -/
theorem encodeAt_ptr_mem (he : e.reflectOnly = false) {n : Nat} {pk k : Key}
    (hp : e.codec pk = .ok (.ptrCodec k)) (ro : Bool) (v : Value) :
    encodeAt e (n + 1) pk (.reflect false ro) (.ptr (some v)) = encodeAt e n k .mem v := by
  rw [encodeAt_of_codec e hp]
  simp [encodeWith, Value.isNil, Value.target, Env.ptrPath, he]

/-- In the default build, a struct whose only field is an opaque array of `int8`: encoded
through `reflect` (`Encode(v)`) it panics in `Bytes()`, encoded through a pointer to it
(`Encode(&v)`) it is the elements' bytes, padded. -/
theorem encode_paths_disagree_int8_opaque (he : e.reflectOnly = false) {n : Nat} {k pk : Key}
    {name : String} {f : FieldRec} (hk : e.codec k = .ok (.structCodec name [f]))
    (hexp : e.exported k.type f.index = true) {len : Nat}
    (hf : e.codec f.key = .ok (.opaqueArrayCodec len)) (hint : e.elemKind f.key.type = .int8)
    (hp : e.codec pk = .ok (.ptrCodec k)) (v : Value) :
    encodeAt e (n + 2) k (.reflect false false) v = .error (.panic bytesPanic) ∧
    encodeAt e (n + 3) pk (.reflect false false) (.ptr (some v)) =
      .ok (encodeFixedOpaque ((v.fields.getD f.index default).elems.map Value.rawByte)) := by
  constructor
  · rw [encodeAt_of_codec e hk]
    simp only [encodeWith, Env.structPath_unaddressable, encodeEach_cons, Path.field, hexp]
    rw [encodeAt_of_codec e hf]
    simp [encodeWith, hint, Except.mapError, Fail.withField, bind, Except.bind]
  · rw [encodeAt_ptr_mem e he hp, encodeAt_of_codec e hk]
    simp only [encodeWith, Env.structPath, encodeEach_cons, Path.field_mem]
    rw [encodeAt_of_codec e hf]
    simp [encodeWith, Except.mapError, bind, Except.bind, pure, Except.pure]

/-- A program with `type S struct { A [4]int8 }`, `A` tagged `xdr:"opaque"`: `0` is `S`, `1` is
`[4]int8`, `2` is `int8`, `3` is `*S`. -/
def int8OpaqueProgram : Universe where
  info
    | 0 => ⟨.struct [⟨"A", 1, true, "opaque".toList⟩], "S", false, .none⟩
    | 1 => ⟨.array 4 2, "", false, .none⟩
    | 2 => ⟨.scalar .int8, "int8", true, .none⟩
    | 3 => ⟨.ptr 0, "", false, .none⟩
    | _ => TypeInfo.invalid
  zero
    | 0 => .struct [.array (List.replicate 4 (.int 0))]
    | 1 => .array (List.replicate 4 (.int 0))
    | 2 => .int 0
    | 3 => .ptr none
    | _ => .ref true
  zero_eq t := by rcases t with _ | _ | _ | _ | t <;> rfl
  marshalXDR _ _ := .ok []
  unmarshalXDR _ v inp := .ok (v, inp)

/-- `S` and `*S` in the default build, on `S{A: [4]int8{1, 2, 3, 4}}`. -/
theorem encode_paths_disagree_int8_opaque_S :
    Env.elemKind ⟨int8OpaqueProgram, .w64, false⟩ 1 = .int8 ∧
    encodeAt ⟨int8OpaqueProgram, .w64, false⟩ 2 ⟨0, []⟩ (.reflect false false)
        (.struct [.array [.int 1, .int 2, .int 3, .int 4]]) = .error (.panic bytesPanic) ∧
    encodeAt ⟨int8OpaqueProgram, .w64, false⟩ 3 ⟨3, []⟩ (.reflect false false)
        (.ptr (some (.struct [.array [.int 1, .int 2, .int 3, .int 4]]))) = .ok [1, 2, 3, 4] :=
  have hk : Env.codec ⟨int8OpaqueProgram, .w64, false⟩ ⟨0, []⟩ =
      .ok (.structCodec "S" [⟨0, "A", ⟨1, [XDRTagKind.Noop, XDRTagKind.Opaque]⟩⟩]) := rfl
  have hp : Env.codec ⟨int8OpaqueProgram, .w64, false⟩ ⟨3, []⟩ = .ok (.ptrCodec ⟨0, []⟩) := rfl
  ⟨rfl, encode_paths_disagree_int8_opaque _ rfl hk rfl rfl rfl hp _⟩

/-- `S{A: [4]int8{1, 2, 3, 4}}` in the default build: `Encode(v)` panics, `Encode(&v)` writes
`01 02 03 04`; decoding those bytes succeeds in the default build and panics in the `nounsafe`
one. -/
theorem int8_opaque_paths_disagree (w : WordSize) :
    encode ⟨int8OpaqueProgram, w, false⟩ 3 0 (.struct [.array [.int 1, .int 2, .int 3, .int 4]]) =
      .error (.panic bytesPanic) ∧
    encode ⟨int8OpaqueProgram, w, false⟩ 4 3
        (.ptr (some (.struct [.array [.int 1, .int 2, .int 3, .int 4]]))) =
      .ok [1, 2, 3, 4] ∧
    decode ⟨int8OpaqueProgram, w, false⟩ 3 0 (.struct [.array (List.replicate 4 (.int 0))])
        ⟨[1, 2, 3, 4], true⟩ =
      .ok (.struct [.array [.int 1, .int 2, .int 3, .int 4]], ⟨[], true⟩) ∧
    decode ⟨int8OpaqueProgram, w, true⟩ 3 0 (.struct [.array (List.replicate 4 (.int 0))])
        ⟨[1, 2, 3, 4], true⟩ =
      .error (.panic bytesPanic) := by
  cases w <;> exact ⟨rfl, rfl, rfl, rfl⟩

end OncXdr
