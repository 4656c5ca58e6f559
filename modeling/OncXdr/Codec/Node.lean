import OncXdr.Tags.Parse

/-!
# OncXdr.Codec.Node — the codecs `buildCodec` makes

Each codec type of `internal/coder` is a constructor of `Codec`, with the fields the source
struct has. Where the source holds a child codec obtained from `cr.getCodec(t, tag)`, the
constructor holds the `Key` of that lookup, `xType{t, tag.ByteString()}`: the registry resolves
the key to the codec stored there (for a recursive type, to the placeholder that forwards to
it), so the key is what the child codec is. A field's Go type, and any `reflect.Type` a codec
keeps, is the type of the key it was built for.
-/

namespace OncXdr

/-- `xType{Type, EncodedTag}`, the registry's key. -/
structure Key where
  type : TypeId
  tag : XDRTag
  deriving DecidableEq, Repr

/-- `field`: a struct field's index, its name, and its codec's key. -/
structure FieldRec where
  index : Nat
  name : String
  key : Key
  deriving DecidableEq, Repr

/-- `switchKind`. -/
inductive SwitchKind
  | switchKindBool
  | switchKindInt
  | switchKindUint
  deriving DecidableEq, Repr

/-- The codecs of `internal/coder`. `intCodec`/`uintCodec` carry the width of
`int8Codec` … `uint32Codec`. A union's `bodyFields` are the records it set, each at its field
index; `cases` maps a switch value to a field index. -/
inductive Codec
  | errorCodec (err : XdrError)
  | marshalerCodec
  | boolCodec
  | intCodec (bits : Nat)
  | uintCodec (bits : Nat)
  | hyperCodec
  | uhyperCodec
  | floatCodec
  | doubleCodec
  | complex64Codec
  | complex128Codec
  | fixedStringCodec (len : Nat)
  | varStringCodec (maxlen origMax : Nat)
  | opaqueArrayCodec (len : Nat)
  | arrayCodec (elem : Key) (len : Nat)
  | opaqueSliceCodec (maxlen origMax : Nat)
  | sliceCodec (elem : Key) (maxlen origMax : Nat)
  | mapCodec (keyCodec valueCodec : Key) (maxlen origMax : Nat)
  | optCodec (elem : Key)
  | ptrCodec (elem : Key)
  | structCodec (name : String) (fields : List FieldRec)
  | unionCodec (name : String) (switchField : FieldRec) (bodyFields : List FieldRec)
      (cases : List (Nat × Nat)) (defaultCase : Option Nat) (switchKind : SwitchKind)

/-- What one run of `buildCodec` produces: the codec, and the keys it looked up with
`cr.getCodec`, in the order of the calls. -/
structure Built where
  codec : Codec
  lookups : List Key

end OncXdr
