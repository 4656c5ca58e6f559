import OncXdr.Codec.Env

/-!
# OncXdr.Codec.Encode — `Encode` and `encodeUnsafe` of every codec

`encodeWith e rec k c p v` is one codec call: codec `c`, built for key `k`, encoding `v`
reached through `p`, with `rec` encoding the children. `encodeAt` ties the knot with fuel.

What differs between the two ways in (`reflect.Value` or pointer) is kept where the source has
it:
* `opaqueArrayCodec.Encode` copies an unaddressable array into a fresh one with `Set` (which
  refuses a read-only value) and takes `Bytes()` (which refuses non-`uint8` elements);
  `encodeUnsafe` reads the memory.
* `opaqueSliceCodec.Encode` takes `Bytes()`; `encodeUnsafe` reinterprets the slice header.
* `structCodec`/`unionCodec.Encode` switch to `encodeUnsafe` when the value is addressable
  (default build only); `ptrCodec` passes the pointee's address (default) or `v.Elem()`.
* `floatCodec` and `complex64Codec` take `v.Float()` and `v.Complex()`, which widen a `float32`
  to `float64` and quiet a signalling NaN on the way; `encodeUnsafe` writes the bits in memory.
* `marshalerCodec` calls `v.Interface()`, which refuses a read-only value; `mapCodec`,
  `marshalerCodec` and `errorCodec` have no unsafe methods and are reached through
  `unsafeCodecWrapper`.
-/

namespace OncXdr

variable (e : Env)

/-- One codec's `Encode`/`encodeUnsafe`. -/
def encodeWith (rec : Key → Path → Value → Except Fail (List UInt8)) (k : Key) :
    Codec → Path → Value → Except Fail (List UInt8)
  | .errorCodec err, _, _ => .error (.err err)
  | .marshalerCodec, p, v =>
    if p.wrapped.readOnly then .error (.panic interfacePanic)
    else (e.U.marshalXDR k.type v).mapError .err
  | .boolCodec, _, v => .ok (encodeBool v.toBool)
  | .intCodec _, _, v => .ok (encodeInt v.toInt)
  | .uintCodec _, _, v => .ok (encodeUnsignedInt v.toUint)
  | .hyperCodec, _, v => .ok (encodeHyper v.toInt)
  | .uhyperCodec, _, v => .ok (encodeUnsignedHyper v.toUint)
  | .floatCodec, p, v => .ok (encodeFloat (p.float32Bits v.toFloat))
  | .doubleCodec, _, v => .ok (encodeDouble v.toFloat)
  | .complex64Codec, p, v =>
    .ok (encodeFloat (p.float32Bits v.toComplex.1) ++ encodeFloat (p.float32Bits v.toComplex.2))
  | .complex128Codec, _, v => .ok (encodeDouble v.toComplex.1 ++ encodeDouble v.toComplex.2)
  | .fixedStringCodec len, _, v =>
    if v.toStr.length = len then .ok (encodeFixedString v.toStr) else .error (.err .lengthIncorrect)
  | .varStringCodec maxlen origMax, _, v =>
    if v.toStr.length ≤ maxlen then (encodeString v.toStr).mapError .err
    else .error (.err (.lengthError v.toStr.length origMax))
  | .opaqueArrayCodec _, .mem, v => .ok (encodeFixedOpaque (v.elems.map Value.rawByte))
  | .opaqueArrayCodec _, .reflect addr ro, v =>
    if !addr && ro then .error (.panic setExportedPanic)
    else if e.elemKind k.type ≠ .uint8 then .error (.panic bytesPanic)
    else .ok (encodeFixedOpaque (v.elems.map Value.rawByte))
  | .arrayCodec ek _, p, v => encodeEach (rec ek p) v.elems
  | .opaqueSliceCodec maxlen origMax, p, v =>
    if p ≠ .mem ∧ e.elemKind k.type ≠ .uint8 then .error (.panic bytesPanic)
    else if maxlen < v.elems.length then .error (.err (.lengthError v.elems.length origMax))
    else (encodeOpaque (v.elems.map Value.rawByte)).mapError .err
  | .sliceCodec ek maxlen origMax, p, v =>
    if maxlen < v.elems.length then .error (.err (.lengthError v.elems.length origMax))
    else do
      let r ← encodeEach (rec ek p.deref) v.elems
      pure (encodeUnsignedInt v.elems.length ++ r)
  | .mapCodec kk vk maxlen origMax, p, v =>
    if maxlen < v.entries.length then .error (.err (.lengthError v.entries.length origMax))
    else do
      let entry := fun (kv : Value × Value) => do
        let a ← rec kk (.reflect false p.wrapped.readOnly) kv.1
        let b ← rec vk (.reflect false p.wrapped.readOnly) kv.2
        pure (a ++ b)
      let r ← encodeEach entry v.entries
      pure (encodeUnsignedInt v.entries.length ++ r)
  | .optCodec ek, p, v =>
    if v.isNil then .ok (encodeBool false)
    else do
      let r ← rec ek p v
      pure (encodeBool true ++ r)
  | .ptrCodec ek, p, v =>
    if v.isNil then .error (.err .nilPointer) else rec ek (e.ptrPath p) v.target
  | .structCodec name fields, p, v =>
    let p := e.structPath p
    encodeEach (fun f => (rec f.key (p.field (e.exported k.type f.index))
      (v.fields.getD f.index default)).mapError (·.withField name f.name none)) fields
  | .unionCodec name sw bodies cases dflt kind, p, v =>
    let p := e.structPath p
    let swv := v.fields.getD sw.index default
    match rec sw.key (p.field (e.exported k.type sw.index)) swv with
    | .error f => .error (f.withField name sw.name (some .unionSwitch))
    | .ok a =>
      match armIndex cases dflt (switchValue kind swv) with
      | none => .error (.err (armUndefined name))
      | some i =>
        match bodies.find? (·.index = i) with
        | none => .error (.panic nilCodecPanic)
        | some f =>
          match rec f.key (p.field (e.exported k.type f.index)) (v.fields.getD f.index default) with
          | .error g => .error (g.withField name f.name (some (.unionCase (switchValue kind swv))))
          | .ok b => .ok (a ++ b)

/-- Encoding `v` with the codec of key `k`, within `fuel` nested codec calls. -/
def encodeAt : Nat → Key → Path → Value → Except Fail (List UInt8)
  | 0, _, _, _ => .error .outOfFuel
  | n + 1, k, p, v =>
    match e.codec k with
    | .error m => .error (.panic m)
    | .ok c => encodeWith e (encodeAt n) k c p v

@[simp] theorem encodeAt_zero (k : Key) (p : Path) (v : Value) :
    encodeAt e 0 k p v = .error .outOfFuel := rfl

theorem encodeAt_succ (n : Nat) (k : Key) (p : Path) (v : Value) :
    encodeAt e (n + 1) k p v =
      match e.codec k with
      | .error m => .error (.panic m)
      | .ok c => encodeWith e (encodeAt e n) k c p v := rfl

/-- The step of `encodeAt` once the key's codec is known. -/
theorem encodeAt_of_codec {n : Nat} {k : Key} {c : Codec} (h : e.codec k = .ok c) (p : Path)
    (v : Value) : encodeAt e (n + 1) k p v = encodeWith e (encodeAt e n) k c p v := by
  rw [encodeAt_succ, h]

end OncXdr
