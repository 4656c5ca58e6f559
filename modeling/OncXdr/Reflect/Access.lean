import OncXdr.Reflect.Universe

/-!
# OncXdr.Reflect.Access — how a codec reaches its value

A codec works either on a `reflect.Value` or, in the default build, on an `unsafe.Pointer`. A
`reflect.Value` carries two flags the engine runs into: `flagAddr` (the value can be
addressed: `CanAddr`, `UnsafeAddr`, `Slice` of an array need it) and `flagRO` (the value was
reached through an unexported field: `Set…`, `Interface` refuse it). The flags follow the
accessor that produced the value: `Field` of an unexported field sets `flagRO`, `Index` of a
slice and `Elem` of a pointer are addressable, `MapRange` gives copies. A pointer has no
flags: raw memory is read and written as is.

The reads (`Bool`, `Int`, `Bytes`, …) and the panics of `reflect` that the codecs can meet are
here too, with their messages.
-/

namespace OncXdr

/-- What a codec is given: a `reflect.Value` with its `flagAddr` and `flagRO`, or the address
of the value (`encodeUnsafe`/`decodeUnsafe`). -/
inductive Path
  | reflect (addr ro : Bool)
  | mem
  deriving DecidableEq, Repr

namespace Path

/-- `v.Field(i)`: addressable if `v` is, read-only if `v` is or the field is unexported. In
memory, the field's offset. -/
def field (exported : Bool) : Path → Path
  | .reflect addr ro => .reflect addr (ro || !exported)
  | .mem => .mem

/-- `v.Index(i)` of a slice, `v.Elem()` of a pointer: addressable, read-only if `v` is. -/
def deref : Path → Path
  | .reflect _ ro => .reflect true ro
  | .mem => .mem

/-- `unsafeCodecWrapper`: a codec with no unsafe methods, called on a pointer, is given
`reflect.NewAt(t, p).Elem()`. -/
def wrapped : Path → Path
  | .mem => .reflect true false
  | p => p

/-- `CanAddr()` of a value (memory is addressed by definition). -/
def addressable : Path → Bool
  | .reflect addr _ => addr
  | .mem => true

/-- `flagRO` of a value (memory has none). -/
def readOnly : Path → Bool
  | .reflect _ ro => ro
  | .mem => false

/-- `flag.mustBeAssignable()` in the method `m`: the panic of calling `m` on the value. -/
def assignPanic (m : String) : Path → Option String
  | .reflect addr ro =>
    if ro then some ("reflect: reflect.Value." ++ m ++ " using value obtained using unexported field")
    else if !addr then some ("reflect: reflect.Value." ++ m ++ " using unaddressable value")
    else none
  | .mem => none

@[simp] theorem field_mem (x : Bool) : Path.field x .mem = .mem := rfl
@[simp] theorem deref_mem : Path.deref .mem = .mem := rfl
@[simp] theorem wrapped_mem : Path.wrapped .mem = .reflect true false := rfl
@[simp] theorem assignPanic_mem (m : String) : Path.assignPanic m .mem = none := rfl

/-- A read-only value cannot be set, whatever the method. -/
theorem assignPanic_readOnly (m : String) (addr : Bool) :
    (Path.reflect addr true).assignPanic m =
      some ("reflect: reflect.Value." ++ m ++ " using value obtained using unexported field") :=
  rfl

/-- An addressable value not reached through an unexported field can be set. -/
@[simp] theorem assignPanic_settable (m : String) :
    (Path.reflect true false).assignPanic m = none := rfl

end Path

/-! ## Floats through `reflect` -/

/-- A `float32` bit pattern that is a signalling NaN: the exponent field all ones, the quiet bit
(the top bit of the mantissa) clear, and the rest of the mantissa not zero. -/
def isSignalingNaN32 (b : Nat) : Bool :=
  b / 2 ^ 23 % 2 ^ 8 == 255 && b / 2 ^ 22 % 2 == 0 && b % 2 ^ 22 != 0

/-- A `float32` converted to `float64` and back: IEEE conversion quiets a signalling NaN by
setting its quiet bit, keeping the payload, and keeps every other bit pattern. -/
def quietNaN32 (b : Nat) : Nat := if isSignalingNaN32 b then b + 2 ^ 22 else b

@[simp] theorem quietNaN32_of_not {b : Nat} (h : isSignalingNaN32 b = false) : quietNaN32 b = b := by
  simp [quietNaN32, h]

/-- What the conversion gives is no signalling NaN. -/
@[simp] theorem isSignalingNaN32_quietNaN32 (b : Nat) : isSignalingNaN32 (quietNaN32 b) = false := by
  unfold quietNaN32
  split
  · rename_i h
    simp only [isSignalingNaN32, Nat.reducePow, Bool.and_eq_true, beq_iff_eq, bne_iff_ne] at h
    -- the quiet bit is set now
    have hq : (b + 4194304) / 4194304 % 2 = 1 := by omega
    simp only [isSignalingNaN32, Nat.reducePow, hq]
    simp
  · rename_i h
    simpa using h

@[simp] theorem quietNaN32_quietNaN32 (b : Nat) : quietNaN32 (quietNaN32 b) = quietNaN32 b :=
  quietNaN32_of_not (isSignalingNaN32_quietNaN32 b)

/-- A `float32` as a codec reads or writes it through the way in: `reflect` goes through
`float64` (`float32(v.Float())`, `v.SetFloat(float64(f))`, and `Complex`/`SetComplex` for the
parts of a `complex64`), memory is copied as it is. -/
def Path.float32Bits : Path → Nat → Nat
  | .reflect .., b => quietNaN32 b
  | .mem, b => b

@[simp] theorem Path.float32Bits_mem (b : Nat) : Path.mem.float32Bits b = b := rfl

theorem Path.float32Bits_of_not {b : Nat} (h : isSignalingNaN32 b = false) (p : Path) :
    p.float32Bits b = b := by
  cases p <;> simp [float32Bits, h]

/-- The conversion keeps a `float32` within 32 bits. -/
theorem Path.float32Bits_lt {b : Nat} (h : b < 2 ^ 32) (p : Path) : p.float32Bits b < 2 ^ 32 := by
  cases p with
  | mem => exact h
  | reflect =>
    simp only [float32Bits, quietNaN32]
    split
    · rename_i hs
      simp only [isSignalingNaN32, Nat.reducePow, Bool.and_eq_true, beq_iff_eq, bne_iff_ne] at hs h ⊢
      omega
    · exact h

@[simp] theorem Path.float32Bits_float32Bits (p : Path) (b : Nat) :
    p.float32Bits (p.float32Bits b) = p.float32Bits b := by
  cases p <;> simp [float32Bits]

/-- `Value.Interface()` on a read-only value. -/
def interfacePanic : String :=
  "reflect.Value.Interface: cannot return value obtained from unexported field or method"

/-- `Value.Bytes()` on a slice whose elements are not `uint8`. -/
def bytesPanic : String := "reflect.Value.Bytes of non-byte slice"

/-- `Value.Slice` on an array that is not addressable. -/
def sliceUnaddressablePanic : String := "reflect.Value.Slice: slice of unaddressable array"

/-- `Value.UnsafeAddr` on a value that is not addressable. -/
def unsafeAddrPanic : String := "reflect.Value.UnsafeAddr of unaddressable value"

/-- `Value.Set(x)` with `x` read-only: `x.mustBeExported()`. -/
def setExportedPanic : String :=
  "reflect: reflect.Value.Set using value obtained using unexported field"

/-- `Value.Set(reflect.ValueOf(s))` for `s : []byte` into a slice type `[]uint8` is not
assignable to. -/
def setBytesPanic (typeName : String) : String :=
  "reflect.Set: value of type []uint8 is not assignable to type " ++ typeName

/-- A method call through a nil codec. -/
def nilCodecPanic : String := "runtime error: invalid memory address or nil pointer dereference"

/-! ## Reading values -/

namespace Value

/-- `v.Bool()`. -/
def toBool : Value → Bool
  | .bool b => b
  | _ => false

/-- `v.Int()`. -/
def toInt : Value → Int
  | .int x => x
  | _ => 0

/-- `v.Uint()`. -/
def toUint : Value → Nat
  | .uint x => x
  | _ => 0

/-- `v.Float()`, as the bit pattern. -/
def toFloat : Value → Nat
  | .float b => b
  | _ => 0

/-- `v.Complex()`, as the bit patterns of its parts. -/
def toComplex : Value → Nat × Nat
  | .complex re im => (re, im)
  | _ => (0, 0)

/-- `v.String()`, as its bytes. -/
def toStr : Value → List UInt8
  | .string s => s
  | _ => []

/-- The elements of an array or a slice, `v.Index(0)`, …, `v.Index(v.Len() - 1)`. -/
def elems : Value → List Value
  | .array xs | .slice xs => xs
  | _ => []

/-- The entries of a map in `MapRange` order. -/
def entries : Value → List (Value × Value)
  | .map kvs => kvs
  | _ => []

/-- The fields of a struct, `v.Field(0)`, …. -/
def fields : Value → List Value
  | .struct fs => fs
  | _ => []

/-- `v.IsNil()` of a pointer or an interface. -/
def isNil : Value → Bool
  | .ptr none => true
  | .ref b => b
  | _ => false

/-- `v.Elem()` of a non-nil pointer. -/
def target : Value → Value
  | .ptr (some x) => x
  | v => v

/-- The byte in memory of an 8-bit integer (two's complement for `int8`). -/
def rawByte : Value → UInt8
  | .int x => UInt8.ofNat (x % 256).toNat
  | .uint x => UInt8.ofNat x
  | _ => 0

end Value

/-- The 8-bit integer of kind `k` whose memory is the byte `b`. -/
def byteValue (k : Kind) (b : UInt8) : Value :=
  if k = .int8 then .int (Int.bmod b.toNat 256) else .uint b.toNat

end OncXdr
