import OncXdr.Codec.Run

/-!
# OncXdr.Codec.Conform — the values a codec tree writes and reads back

What a round trip through a codec needs of the value encoded and of the destination decoded
into, stated once per codec as the codec is built, like `encodeWith` and `decodeWith`.

* `Conform e n k v`: `v` is a value of `k`'s type as Go holds it — each primitive in its
  type's range, strings and opaque bodies short enough for `int` arithmetic on their padded
  length, byte layers made of 8-bit integers, lengths that fit a length word, a pointer that is
  not nil, distinct map keys encoded differently — and the union's switch field has a scalar
  codec. With `nounsafe`, every struct and union field decoded is exported, as `reflect` sets
  no other. Marshaler and error codecs conform to nothing.
* `Dest e n k d`: `d` is a destination `Decode` can fill: arrays of the right length, structs
  with every recorded field, and the zero values decoding creates for slices, maps and
  pointers.
* `Paired pe pd`: the paths of the encoder and the decoder to the same value. The decoder's
  value can be set; it is in memory wherever the encoder's is.

`RoundTrips` is the round trip itself, for given encode and decode functions.
-/

namespace OncXdr

/-- The codecs of one primitive value, string or opaque body: a round trip through them gives
back the value itself. -/
def Codec.isScalar : Codec → Bool
  | .boolCodec | .intCodec _ | .uintCodec _ | .hyperCodec | .uhyperCodec | .floatCodec
  | .doubleCodec | .complex64Codec | .complex128Codec | .fixedStringCodec _ | .varStringCodec ..
  | .opaqueArrayCodec _ | .opaqueSliceCodec .. => true
  | _ => false

/-- `x` is the 8-bit integer of kind `kind` whose memory is `x.rawByte`, as an opaque layer
decodes it. -/
def Value.IsByte (kind : Kind) (x : Value) : Prop := x = byteValue kind x.rawByte

/-- No two of `xs` are encoded alike by `f`. -/
def Distinct (f : Value → Except Fail (List UInt8)) (xs : List Value) : Prop :=
  xs.Pairwise fun a b => ∀ bs, f a = .ok bs → f b ≠ .ok bs

/-- The paths on which the encoder and the decoder reach one value. -/
def Paired (pe pd : Path) : Prop := pd = .mem ∨ (pd = .reflect true false ∧ pe ≠ .mem)

variable (e : Env)

/-- Field `i` of the struct type `t` can be set through `reflect` where the build decodes
structs through `reflect`: with `nounsafe`, it must be exported. -/
def Env.Settable (t : TypeId) (i : Nat) : Prop := e.reflectOnly = true → e.exported t i = true

/-- One codec's conditions on the value it encodes, given its children's (`rec`) and their
encoders (`enc`). -/
def conformWith (rec : Key → Value → Prop) (enc : Key → Path → Value → Except Fail (List UInt8))
    (k : Key) : Codec → Value → Prop
  | .errorCodec _, _ | .marshalerCodec, _ => False
  | .boolCodec, v => ∃ b, v = .bool b
  | .intCodec bits, v => ∃ x, v = .int x ∧ bits ≤ 32 ∧ x.bmod (2 ^ bits) = x
  | .uintCodec bits, v => ∃ x, v = .uint x ∧ bits ≤ 32 ∧ x < 2 ^ bits
  | .hyperCodec, v => ∃ x, v = .int x ∧ x.bmod (2 ^ 64) = x
  | .uhyperCodec, v => ∃ x, v = .uint x ∧ x < 2 ^ 64
  | .floatCodec, v => ∃ b, v = .float b ∧ b < 2 ^ 32
  | .doubleCodec, v => ∃ b, v = .float b ∧ b < 2 ^ 64
  | .complex64Codec, v => ∃ re im, v = .complex re im ∧ re < 2 ^ 32 ∧ im < 2 ^ 32
  | .complex128Codec, v => ∃ re im, v = .complex re im ∧ re < 2 ^ 64 ∧ im < 2 ^ 64
  | .fixedStringCodec len, v => ∃ s, v = .string s ∧ len + 3 ≤ e.w.maxInt
  | .varStringCodec .., v => ∃ s, v = .string s ∧ s.length + 3 ≤ e.w.maxInt
  | .opaqueArrayCodec len, v => ∃ xs, v = .array xs ∧ xs.length = len ∧ len + 3 ≤ e.w.maxInt ∧
      (e.elemKind k.type = .uint8 ∨ e.elemKind k.type = .int8) ∧
      ∀ x ∈ xs, x.IsByte (e.elemKind k.type)
  | .arrayCodec ek len, v => ∃ xs, v = .array xs ∧ xs.length = len ∧ ∀ x ∈ xs, rec ek x
  | .opaqueSliceCodec .., v => ∃ xs, v = .slice xs ∧ xs.length + 3 ≤ e.w.maxInt ∧
      (e.bytesAssignable k.type = true ∨ e.elemKind k.type = .int8) ∧
      ∀ x ∈ xs, x.IsByte (e.elemKind k.type)
  | .sliceCodec ek .., v => ∃ xs, v = .slice xs ∧ xs.length < 2 ^ 32 ∧ ∀ x ∈ xs, rec ek x
  | .mapCodec kk vk .., v => ∃ kvs, v = .map kvs ∧ kvs.length < 2 ^ 32 ∧
      (∀ kv ∈ kvs, rec kk kv.1 ∧ rec vk kv.2) ∧
      ∀ ro, Distinct (enc kk (.reflect false ro)) (kvs.map Prod.fst)
  | .optCodec ek, v => (v.isNil = true ∧ (e.U.zero k.type).isNil = true) ∨
      (v.isNil = false ∧ rec ek v)
  | .ptrCodec ek, v => ∃ x, v = .ptr (some x) ∧ rec ek x
  | .structCodec _ fields, v => ∃ fs, v = .struct fs ∧ (fields.map FieldRec.index).Nodup ∧
      ∀ f ∈ fields, e.Settable k.type f.index ∧ rec f.key (fs.getD f.index default)
  | .unionCodec _ sw bodies cases dflt kind, v => ∃ fs, v = .struct fs ∧
      (∃ c, e.codec sw.key = .ok c ∧ c.isScalar = true) ∧ e.Settable k.type sw.index ∧
      rec sw.key (fs.getD sw.index default) ∧
      ∀ i f, armIndex cases dflt (switchValue kind (fs.getD sw.index default)) = some i →
        bodies.find? (·.index = i) = some f → f.index ≠ sw.index ∧ e.Settable k.type f.index ∧
          rec f.key (fs.getD f.index default)

/-- One codec's conditions on the destination it decodes into, given its children's. -/
def destWith (rec : Key → Value → Prop) (k : Key) : Codec → Value → Prop
  | .arrayCodec ek len, d => ∃ ds, d = .array ds ∧ ds.length = len ∧ ∀ x ∈ ds, rec ek x
  | .sliceCodec ek .., _ => rec ek (e.U.zero ek.type)
  | .mapCodec kk vk .., _ => rec kk (e.U.zero kk.type) ∧ rec vk (e.U.zero vk.type)
  | .optCodec ek, d => rec ek d ∧ rec ek (e.U.zero k.type)
  | .ptrCodec ek, _ => rec ek (e.U.zero ek.type)
  | .structCodec _ fields, d => ∃ fs, d = .struct fs ∧
      ∀ f ∈ fields, f.index < fs.length ∧ rec f.key (fs.getD f.index default)
  | .unionCodec _ sw bodies .., d => ∃ fs, d = .struct fs ∧ sw.index < fs.length ∧
      rec sw.key (fs.getD sw.index default) ∧
      ∀ f ∈ bodies, f.index < fs.length ∧ rec f.key (fs.getD f.index default)
  | _, _ => True

/-- The values the codec of `k` encodes and decodes back, within `fuel` nested codecs. -/
def Conform : Nat → Key → Value → Prop
  | 0, _, _ => False
  | n + 1, k, v =>
    match e.codec k with
    | .error _ => False
    | .ok c => conformWith e (Conform n) (encodeAt e n) k c v

/-- The destinations the codec of `k` decodes into, within `fuel` nested codecs. -/
def Dest : Nat → Key → Value → Prop
  | 0, _, _ => True
  | n + 1, k, d =>
    match e.codec k with
    | .error _ => True
    | .ok c => destWith e (Dest n) k c d

theorem conform_of_codec {n : Nat} {k : Key} {c : Codec} (h : e.codec k = .ok c) (v : Value) :
    Conform e (n + 1) k v = conformWith e (Conform e n) (encodeAt e n) k c v := by
  simp only [Conform, h]

theorem dest_of_codec {n : Nat} {k : Key} {c : Codec} (h : e.codec k = .ok c) (d : Value) :
    Dest e (n + 1) k d = destWith e (Dest e n) k c d := by
  simp only [Dest, h]

/-- What a scalar codec writes of `v` through `p`, as a value: a `float32`, or the parts of a
`complex64`, as `reflect` converts it; any other value as it is. -/
def Codec.written : Codec → Path → Value → Value
  | .floatCodec, p, .float b => .float (p.float32Bits b)
  | .complex64Codec, p, .complex re im => .complex (p.float32Bits re) (p.float32Bits im)
  | _, _, v => v

/-- The switch value of what a codec writes is that of the value: the conversion changes only
the bits of a float. -/
@[simp] theorem switchValue_written (kind : SwitchKind) (c : Codec) (p : Path) (v : Value) :
    switchValue kind (c.written p v) = switchValue kind v := by
  unfold Codec.written
  split <;> cases kind <;> rfl

/-- `dec` decodes back what `enc` encodes: on the values `ok` admits, into the destinations
`dest` admits, exactly the bytes written are read, and the value decoded is written as the same
bytes, is nil when the value was, and under a scalar codec is what was written: the value
itself, a `float32` through `reflect` quieted. -/
def RoundTrips (enc : Key → Path → Value → Except Fail (List UInt8))
    (dec : Key → Path → Value → Input → Except Fail (Value × Input))
    (ok dest : Key → Value → Prop) : Prop :=
  ∀ k pe pd v d bs rest full, Paired pe pd → ok k v → dest k d → enc k pe v = .ok bs →
    ∃ v', dec k pd d ⟨bs ++ rest, full⟩ = .ok (v', ⟨rest, full⟩) ∧ enc k pe v' = .ok bs ∧
      v'.isNil = v.isNil ∧ ∀ c, e.codec k = .ok c → c.isScalar = true → v' = c.written pe v

end OncXdr
