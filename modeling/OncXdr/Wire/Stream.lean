import OncXdr.Wire.Error

/-!
# OncXdr.Wire.Stream — the encoder's and the decoder's primitive forms

`encoder` writes big-endian words and padded bodies to an `io.Writer`; `decoder` reads them
back with `io.ReadFull`. The writer here is the in-memory buffer `Marshal` uses, on which
writes do not fail, so an encoding is the list of bytes written. The reader is a finite byte
stream: `io.ReadFull` either fills its buffer or reports `io.EOF` (nothing read) or
`io.ErrUnexpectedEOF` (a part read), having consumed what was there.

`Input.full` is bookkeeping the decoder never reads: it records whether every `ReadFull` so
far was satisfied in full, since `DecodeOpaque` goes on after one that was not.
-/

namespace OncXdr

/-! ## Encoder -/

/-- `EncodeInt(i)`: the four bytes of `int32(i)`. -/
def encodeInt (i : Int) : List UInt8 := be 4 (i % 2 ^ 32).toNat

/-- `EncodeUnsignedInt(u)`, which calls `EncodeInt(int32(u))`. -/
def encodeUnsignedInt (u : Nat) : List UInt8 := be 4 u

/-- `EncodeBool`: `1` or `0` as an int. -/
def encodeBool (b : Bool) : List UInt8 := encodeInt (if b then 1 else 0)

/-- `EncodeHyper(i)`: the eight bytes of `i`. -/
def encodeHyper (i : Int) : List UInt8 := be 8 (i % 2 ^ 64).toNat

/-- `EncodeUnsignedHyper(u)`, which calls `EncodeHyper(int64(u))`. -/
def encodeUnsignedHyper (u : Nat) : List UInt8 := be 8 u

/-- `EncodeFloat`: the word of `math.Float32bits(f)`. -/
def encodeFloat (bits : Nat) : List UInt8 := encodeUnsignedInt bits

/-- `EncodeDouble`: the hyper of `math.Float64bits(f)`. -/
def encodeDouble (bits : Nat) : List UInt8 := encodeUnsignedHyper bits

/-- `EncodeFixedOpaque(buf)`: the bytes, then padding to a multiple of four. -/
def encodeFixedOpaque (buf : List UInt8) : List UInt8 := buf ++ pad buf.length

/-- `EncodeOpaque(buf)`: a body over `math.MaxUint32` bytes fails before any output; otherwise
the length word, then the fixed form. -/
def encodeOpaque (buf : List UInt8) : Except XdrError (List UInt8) :=
  if maxUint32 < buf.length then .error (.lengthError buf.length maxUint32)
  else .ok (encodeUnsignedInt buf.length ++ encodeFixedOpaque buf)

/-- `EncodeFixedString`: a string is written as the fixed opaque of its bytes. -/
def encodeFixedString (s : List UInt8) : List UInt8 := encodeFixedOpaque s

/-- `EncodeString`: a string is written as the opaque of its bytes. -/
def encodeString (s : List UInt8) : Except XdrError (List UInt8) := encodeOpaque s

/-! ## Decoder -/

/-- The decoder's stream: the bytes not yet read, and whether every read so far was filled. -/
structure Input where
  rest : List UInt8
  full : Bool

/-- `io.ReadFull(r, buf)` with `len(buf) = n`: the bytes read, the stream after, and the error
when fewer than `n` bytes were there. -/
def readFull (n : Nat) (inp : Input) : List UInt8 × Input × Option XdrError :=
  if n ≤ inp.rest.length then (inp.rest.take n, ⟨inp.rest.drop n, inp.full⟩, none)
  else (inp.rest, ⟨[], false⟩, some (if inp.rest.isEmpty then .eof else .unexpectedEOF))

/-- `DecodeUnsignedInt`. -/
def decodeUnsignedInt (inp : Input) : Except XdrError (Nat × Input) :=
  match readFull 4 inp with
  | (b, inp', none) => .ok (fromBE b, inp')
  | (_, _, some e) => .error e

/-- `DecodeInt`: the word as an `int32`. -/
def decodeInt (inp : Input) : Except XdrError (Int × Input) := do
  let (u, inp) ← decodeUnsignedInt inp
  pure (Int.bmod u (2 ^ 32), inp)

/-- `DecodeBool`: only the words `0` and `1` are booleans. -/
def decodeBool (inp : Input) : Except XdrError (Bool × Input) := do
  let (i, inp) ← decodeUnsignedInt inp
  if i = 0 then pure (false, inp)
  else if i = 1 then pure (true, inp)
  else throw .invalidValue

/-- `DecodeUnsignedHyper`. -/
def decodeUnsignedHyper (inp : Input) : Except XdrError (Nat × Input) :=
  match readFull 8 inp with
  | (b, inp', none) => .ok (fromBE b, inp')
  | (_, _, some e) => .error e

/-- `DecodeHyper`: the eight bytes as an `int64`. -/
def decodeHyper (inp : Input) : Except XdrError (Int × Input) := do
  let (u, inp) ← decodeUnsignedHyper inp
  pure (Int.bmod u (2 ^ 64), inp)

/-- `DecodeOpaque(maxLen)`. A zero length gives `nil`; a length over `maxLen` is a
`LengthError`. The padded length `(int(l) + 3) &^ 3` is computed in Go's `int`, and `make`
panics on a negative size. The body's `ReadFull` error is discarded: what was read is returned,
the rest of the buffer being the zeros `make` put there. -/
def decodeOpaque (w : WordSize) (maxLen : Nat) (inp : Input) :
    Except Fail (List UInt8 × Input) :=
  match decodeUnsignedInt inp with
  | .error e => .error (.err e)
  | .ok (l, inp) =>
    if l = 0 then .ok ([], inp)
    else if maxLen < l then .error (.err (.lengthError l maxLen))
    else
      let lPad := andNot3 (goInt w (l + 3))
      if lPad < 0 then .error (.panic "runtime error: makeslice: len out of range")
      else
        let (got, inp', _) := readFull lPad.toNat inp
        .ok ((got ++ List.replicate lPad.toNat 0).take l, inp')

/-- The padding `DecodeFixedOpaque` discards after `n` bytes: `((n + 3) &^ 3) - n` in Go's
`int`. -/
def fixedPad (w : WordSize) (n : Nat) : Int := goInt w (andNot3 (goInt w (n + 3)) - n)

/-- `DecodeFixedOpaque(buf)` with `len(buf) = n`: the body, then the padding read into a
four-byte scratch array (a slice of it past four bytes would panic). -/
def decodeFixedOpaque (w : WordSize) (n : Nat) (inp : Input) :
    Except Fail (List UInt8 × Input) :=
  match readFull n inp with
  | (_, _, some e) => .error (.err e)
  | (buf, inp, none) =>
    let p := fixedPad w n
    if p = 0 then .ok (buf, inp)
    else if p < 0 ∨ 4 < p then .error (.panic "runtime error: slice bounds out of range")
    else match readFull p.toNat inp with
      | (_, _, some e) => .error (.err e)
      | (_, inp, none) => .ok (buf, inp)

/-- `DecodeString(maxLen)`: the opaque, as a string. -/
def decodeString (w : WordSize) (maxLen : Nat) (inp : Input) :
    Except Fail (List UInt8 × Input) :=
  decodeOpaque w maxLen inp

/-- `DecodeFixedString(len)`: the fixed opaque of that length, as a string. -/
def decodeFixedString (w : WordSize) (len : Nat) (inp : Input) :
    Except Fail (List UInt8 × Input) :=
  decodeFixedOpaque w len inp

end OncXdr
