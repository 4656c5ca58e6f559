import OncXdr.Wire.Stream

/-!
# OncXdr.Reflect.Universe — the program's types, their zero values, and user methods

A `Universe` is the type graph of one Go program, with the two things the engine takes from
outside it: the zero value `reflect.New` and `reflect.MakeSlice` produce for each type, and
the `MarshalXDR`/`UnmarshalXDR` methods of the types that declare them.

Go rejects a type of infinite size, so every type has a finite zero value; the universe
carries it with the proof that it unfolds as `reflect.Zero` does, one layer at a time
(`zero_eq`).
-/

namespace OncXdr

/-- The zero value of a type with no element types. `ref` kinds are nil. -/
def kindZero : Kind → Value
  | .bool => .bool false
  | .int | .int8 | .int16 | .int32 | .int64 => .int 0
  | .uint | .uint8 | .uint16 | .uint32 | .uint64 | .uintptr => .uint 0
  | .float32 | .float64 => .float 0
  | .complex64 | .complex128 => .complex 0 0
  | .string => .string []
  | _ => .ref true

/-- One layer of `reflect.Zero`: an array of zero elements, a struct of zero fields, and nil
for slices, maps and pointers. -/
def zeroOf (info : TypeId → TypeInfo) (zero : TypeId → Value) (t : TypeId) : Value :=
  match (info t).shape with
  | .scalar k => kindZero k
  | .array n e => .array (List.replicate n (zero e))
  | .slice _ => .slice []
  | .map .. => .map []
  | .ptr _ => .ptr none
  | .struct fs => .struct (fs.map fun f => zero f.type)

/-- What `reflect` says of an id no type of the program has: an invalid type. -/
def TypeInfo.invalid : TypeInfo := ⟨.scalar .invalid, "", false, .none⟩

/-- A Go program's types. `marshalXDR t v` is what `v.MarshalXDR(e)` writes (or the error it
returns); `unmarshalXDR t v inp` runs `v.UnmarshalXDR(d)` on the receiver `v`, giving the
receiver after the call and the stream after the bytes it read. -/
structure Universe where
  info : TypeId → TypeInfo
  zero : TypeId → Value
  zero_eq : ∀ t, zero t = zeroOf info zero t
  marshalXDR : TypeId → Value → Except XdrError (List UInt8)
  unmarshalXDR : TypeId → Value → Input → Except XdrError (Value × Input)

namespace Universe

variable (U : Universe)

/-- `t.Kind()`. -/
def kind (t : TypeId) : Kind := (U.info t).shape.kind

/-- `t.Elem()` (only asked of array, map, pointer and slice types). -/
def elem (t : TypeId) : TypeId := ((U.info t).shape.elem?).getD t

end Universe

end OncXdr
