import OncXdr.Codec.Env

/-!
# OncXdr.Codec.Decode — `Decode` and `decodeUnsafe` of every codec

`decodeWith e rec k c p v inp` is one codec call: it decodes from `inp` into the value `v`
reached through `p`, and gives the value after the call and the rest of the stream. A failed
call gives only its failure: what the destination holds then is not modelled.

The order of reading and setting is the source's, since it decides between an error and a
panic: the primitive codecs read, then call `Set…` (which panics on a value that cannot be
set, even after a failed read), then return the read's error; the complex codecs return a read
error before setting; the slice, map and opt codecs `Set` before reading what follows.
A value reached through a pointer is written as memory, with no such checks. Through `reflect`
a `float32` is set by `SetFloat(float64(f))` (the parts of a `complex64` likewise), which quiets
a signalling NaN; memory takes the bits read.
-/

namespace OncXdr

variable (e : Env)

/-- A primitive `Decode`: the read `r` (a panic in it comes first), then `v.Set…` through `p`
by the method `m`, then the read's result. -/
def setAfter (m : String) (p : Path) (r : Except Fail (Value × Input)) :
    Except Fail (Value × Input) :=
  match r, p.assignPanic m with
  | .error (.panic msg), _ => .error (.panic msg)
  | .error .outOfFuel, _ => .error .outOfFuel
  | _, some msg => .error (.panic msg)
  | r, none => r

/-- A read of the stream as a value: `Except XdrError` lifted to `Fail`. -/
def readAs {α : Type} (f : α → Value) (r : Except XdrError (α × Input)) :
    Except Fail (Value × Input) :=
  match r with
  | .ok (a, inp) => .ok (f a, inp)
  | .error err => .error (.err err)

/-- One codec's `Decode`/`decodeUnsafe`. -/
def decodeWith (rec : Key → Path → Value → Input → Except Fail (Value × Input)) (k : Key) :
    Codec → Path → Value → Input → Except Fail (Value × Input)
  | .errorCodec err, _, _, _ => .error (.err err)
  | .marshalerCodec, p, v, inp =>
    if p.wrapped.readOnly then .error (.panic interfacePanic)
    else match e.U.unmarshalXDR k.type v inp with
      | .error err => .error (.err err)
      -- `UnmarshalXDR` ran on `v.Interface()`, a copy of the destination
      | .ok (_, inp) => .ok (v, inp)
  | .boolCodec, p, _, inp => setAfter "SetBool" p (readAs .bool (decodeBool inp))
  | .intCodec bits, p, _, inp =>
    setAfter "SetInt" p (readAs (fun x => .int (Int.bmod x (2 ^ bits))) (decodeInt inp))
  | .uintCodec bits, p, _, inp =>
    setAfter "SetUint" p (readAs (fun x => .uint (x % 2 ^ bits)) (decodeUnsignedInt inp))
  | .hyperCodec, p, _, inp => setAfter "SetInt" p (readAs .int (decodeHyper inp))
  | .uhyperCodec, p, _, inp => setAfter "SetUint" p (readAs .uint (decodeUnsignedHyper inp))
  | .floatCodec, p, _, inp =>
    setAfter "SetFloat" p (readAs (fun b => .float (p.float32Bits b)) (decodeUnsignedInt inp))
  | .doubleCodec, p, _, inp => setAfter "SetFloat" p (readAs .float (decodeUnsignedHyper inp))
  | .complex64Codec, p, _, inp =>
    match decodeUnsignedInt inp with
    | .error err => .error (.err err)
    | .ok (re, inp) =>
      match decodeUnsignedInt inp with
      | .error err => .error (.err err)
      | .ok (im, inp) =>
        setAfter "SetComplex" p (.ok (.complex (p.float32Bits re) (p.float32Bits im), inp))
  | .complex128Codec, p, _, inp =>
    match decodeUnsignedHyper inp with
    | .error err => .error (.err err)
    | .ok (re, inp) =>
      match decodeUnsignedHyper inp with
      | .error err => .error (.err err)
      | .ok (im, inp) => setAfter "SetComplex" p (.ok (.complex re im, inp))
  | .fixedStringCodec len, p, _, inp =>
    setAfter "SetString" p ((decodeFixedString e.w len inp).map fun (s, inp) => (.string s, inp))
  | .varStringCodec maxlen origMax, p, _, inp =>
    setAfter "SetString" p <|
      match decodeString e.w maxlen inp with
      | .error (.err (.lengthError l _)) => .error (.err (.lengthError l origMax))
      | .error f => .error f
      | .ok (s, inp) => .ok (.string s, inp)
  | .opaqueArrayCodec len, .mem, _, inp =>
    (decodeFixedOpaque e.w len inp).map fun (b, inp) =>
      (.array (b.map (byteValue (e.elemKind k.type))), inp)
  | .opaqueArrayCodec len, .reflect addr _, _, inp =>
    if !addr then .error (.panic sliceUnaddressablePanic)
    else if e.elemKind k.type ≠ .uint8 then .error (.panic bytesPanic)
    else (decodeFixedOpaque e.w len inp).map fun (b, inp) => (.array (b.map (byteValue .uint8)), inp)
  | .arrayCodec ek _, p, v, inp =>
    (decodeEach (rec ek p) v.elems inp).map fun (xs, inp) => (.array xs, inp)
  | .opaqueSliceCodec maxlen _, .mem, _, inp =>
    (decodeOpaque e.w maxlen inp).map fun (s, inp) =>
      (.slice (s.map (byteValue (e.elemKind k.type))), inp)
  | .opaqueSliceCodec maxlen _, .reflect addr ro, _, inp =>
    match decodeOpaque e.w maxlen inp with
    | .error (.panic m) => .error (.panic m)
    | r =>
      match (Path.reflect addr ro).assignPanic "Set" with
      | some msg => .error (.panic msg)
      | none =>
        if !e.bytesAssignable k.type then .error (.panic (setBytesPanic (e.U.info k.type).name))
        else r.map fun (s, inp) => (.slice (s.map (byteValue .uint8)), inp)
  | .sliceCodec ek maxlen origMax, p, _, inp =>
    match decodeUnsignedInt inp with
    | .error err => .error (.err err)
    | .ok (l, inp) =>
      if l = 0 then setAfter "Set" p (.ok (.slice [], inp))
      else if maxlen < l then .error (.err (.lengthError l origMax))
      else match p.assignPanic "Set" with
        | some msg => .error (.panic msg)
        | none =>
          (decodeEach (rec ek p.deref) (List.replicate l (e.U.zero ek.type)) inp).map
            fun (xs, inp) => (.slice xs, inp)
  | .mapCodec kk vk maxlen origMax, p, _, inp =>
    match decodeUnsignedInt inp with
    | .error err => .error (.err err)
    | .ok (l, inp) =>
      if maxlen < l then .error (.err (.lengthError l origMax))
      else match p.wrapped.assignPanic "Set" with
        | some msg => .error (.panic msg)
        | none =>
          (decodeEntries (rec kk (.reflect true false) (e.U.zero kk.type))
            (rec vk (.reflect true false) (e.U.zero vk.type)) l [] inp).map
            fun (kvs, inp) => (.map kvs, inp)
  | .optCodec ek, .mem, v, inp =>
    match decodeBool inp with
    | .error err => .error (.err err)
    | .ok (true, inp) => rec ek .mem v inp
    | .ok (false, inp) => .ok (e.U.zero k.type, inp)
  | .optCodec ek, .reflect addr ro, _, inp =>
    match (Path.reflect addr ro).assignPanic "Set" with
    | some msg => .error (.panic msg)
    | none =>
      match decodeBool inp with
      | .error err => .error (.err err)
      | .ok (true, inp) => rec ek (.reflect addr ro) (e.U.zero k.type) inp
      | .ok (false, inp) => .ok (e.U.zero k.type, inp)
  | .ptrCodec ek, p, _, inp =>
    match p.assignPanic "Set" with
    | some msg => .error (.panic msg)
    | none =>
      (rec ek (e.ptrPath p) (e.U.zero ek.type) inp).map fun (x, inp) => (.ptr (some x), inp)
  | .structCodec name fields, p, v, inp =>
    if !p.addressable && !e.reflectOnly then .error (.panic unsafeAddrPanic)
    else
      let p := e.structPath p
      (decodeFields (fun f x inp => (rec f.key (p.field (e.exported k.type f.index)) x inp).mapError
        (·.withField name f.name none)) fields v.fields inp).map fun (fs, inp) => (.struct fs, inp)
  | .unionCodec name sw bodies cases dflt kind, p, v, inp =>
    if !p.addressable && !e.reflectOnly then .error (.panic unsafeAddrPanic)
    else
      let p := e.structPath p
      match rec sw.key (p.field (e.exported k.type sw.index)) (v.fields.getD sw.index default) inp with
      | .error f => .error (f.withField name sw.name (some .unionSwitch))
      | .ok (swv, inp) =>
        let fs := v.fields.set sw.index swv
        match armIndex cases dflt (switchValue kind swv) with
        | none => .error (.err (armUndefined name))
        | some i =>
          match bodies.find? (·.index = i) with
          | none => .error (.panic nilCodecPanic)
          | some f =>
            match rec f.key (p.field (e.exported k.type f.index)) (fs.getD f.index default) inp with
            | .error g => .error (g.withField name f.name (some (.unionCase (switchValue kind swv))))
            | .ok (x, inp) => .ok (.struct (fs.set f.index x), inp)

/-- A read that succeeds, on a value that can be set, is the call's result. -/
@[simp] theorem setAfter_ok {m : String} {p : Path} (hp : p.assignPanic m = none)
    (r : Value × Input) : setAfter m p (.ok r) = .ok r := by
  simp [setAfter, hp]

/-- Decoding into `v` with the codec of key `k`, within `fuel` nested codec calls. -/
def decodeAt : Nat → Key → Path → Value → Input → Except Fail (Value × Input)
  | 0, _, _, _, _ => .error .outOfFuel
  | n + 1, k, p, v, inp =>
    match e.codec k with
    | .error m => .error (.panic m)
    | .ok c => decodeWith e (decodeAt n) k c p v inp

@[simp] theorem decodeAt_zero (k : Key) (p : Path) (v : Value) (inp : Input) :
    decodeAt e 0 k p v inp = .error .outOfFuel := rfl

/-- The step of `decodeAt` once the key's codec is known. -/
theorem decodeAt_of_codec {n : Nat} {k : Key} {c : Codec} (h : e.codec k = .ok c) (p : Path)
    (v : Value) (inp : Input) :
    decodeAt e (n + 1) k p v inp = decodeWith e (decodeAt e n) k c p v inp := by
  simp only [decodeAt, h]

end OncXdr
