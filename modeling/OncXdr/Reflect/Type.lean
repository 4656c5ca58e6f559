import OncXdr.Wire.Word

/-!
# OncXdr.Reflect.Type — the part of `reflect` the engine reads

The engine is driven by `reflect.Type` and `reflect.Value`. A type is compared by identity
(`xType` keys the registry on it), so here a type is an index into the program's type graph,
and the graph says what `Kind`, `Elem`, `Key`, `Len`, `NumField`/`Field`, `Name` and
`Implements(marshalerType)` return for it. Recursive types are cycles through `ptr`, `slice`
or `map` nodes of the graph.

A value is the tree of what the codecs read and write: numbers as `Int`/`Nat` of their
type's width, floats as their IEEE bit patterns, arrays, slices and struct fields as lists,
a map as its entries in iteration order, a pointer as its target. A nil slice or map is the
empty one: no codec tells them apart.
-/

namespace OncXdr

/-! ## Types -/

/-- A `reflect.Type`, by its identity in the type graph. -/
abbrev TypeId := Nat

/-- `reflect.Kind`. -/
inductive Kind
  | invalid | bool | int | int8 | int16 | int32 | int64
  | uint | uint8 | uint16 | uint32 | uint64 | uintptr
  | float32 | float64 | complex64 | complex128
  | array | chan | func | interface | map | ptr | slice | string | struct | unsafePointer
  deriving DecidableEq, Repr

/-- A struct field as `t.Field(i)` gives it, with `f.Tag.Get("xdr")` as `tag`. A field is
exported when its `PkgPath` is empty. -/
structure Field where
  name : String
  type : TypeId
  exported : Bool
  tag : List Char

/-- What `Elem`, `Key`, `Len` and `Field` return: the edges of the type graph. -/
inductive Shape
  | scalar (k : Kind)
  | array (len : Nat) (elem : TypeId)
  | slice (elem : TypeId)
  | map (key elem : TypeId)
  | ptr (elem : TypeId)
  | struct (fields : List Field)

/-- `t.Kind()`. -/
def Shape.kind : Shape → Kind
  | .scalar k => k
  | .array .. => .array
  | .slice _ => .slice
  | .map .. => .map
  | .ptr _ => .ptr
  | .struct _ => .struct

/-- `t.Elem()` on the kinds that have one. -/
def Shape.elem? : Shape → Option TypeId
  | .array _ e | .slice e | .map _ e | .ptr e => some e
  | _ => none

/-- Where a type's `MarshalXDR`/`UnmarshalXDR` methods are declared. With value receivers both
`T` and `*T` implement `Marshaler`; with pointer receivers only `*T` does. -/
inductive Receiver
  | none
  | value
  | pointer
  deriving DecidableEq, Repr

/-- Everything the engine asks `reflect` about one type. `predeclared` marks the types named
by `prohibitedPrimitives` (`bool`, `int8`, …, `complex128` themselves, not types declared
from them). -/
structure TypeInfo where
  shape : Shape
  name : String
  predeclared : Bool
  receiver : Receiver

/-- `t.Implements(marshalerType)`. -/
def TypeInfo.implementsMarshaler (ti : TypeInfo) : Bool := ti.receiver == .value

/-! ## Values -/

/-- A value as the codecs read and write it. `ref` stands for a `chan`, `func`, interface or
`unsafe.Pointer`, of which the engine only ever asks `IsNil`. -/
inductive Value
  | bool (b : Bool)
  | int (x : Int)
  | uint (x : Nat)
  | float (bits : Nat)
  | complex (re im : Nat)
  | string (s : List UInt8)
  | array (xs : List Value)
  | slice (xs : List Value)
  | map (kvs : List (Value × Value))
  | ptr (p : Option Value)
  | struct (fs : List Value)
  | ref (isNil : Bool)
  deriving Repr, Inhabited

namespace Value

mutual
/-- Structural equality of values, the key comparison of a decoded map. -/
def beq : Value → Value → Bool
  | .bool a, b => match b with | .bool b => a == b | _ => false
  | .int a, b => match b with | .int b => a == b | _ => false
  | .uint a, b => match b with | .uint b => a == b | _ => false
  | .float a, b => match b with | .float b => a == b | _ => false
  | .complex a a', b => match b with | .complex b b' => a == b && a' == b' | _ => false
  | .string a, b => match b with | .string b => a == b | _ => false
  | .array xs, b => match b with | .array ys => beqList xs ys | _ => false
  | .slice xs, b => match b with | .slice ys => beqList xs ys | _ => false
  | .map xs, b => match b with | .map ys => beqPairs xs ys | _ => false
  | .ptr none, b => match b with | .ptr none => true | _ => false
  | .ptr (some a), b => match b with | .ptr (some b) => beq a b | _ => false
  | .struct xs, b => match b with | .struct ys => beqList xs ys | _ => false
  | .ref a, b => match b with | .ref b => a == b | _ => false
/-- `beq` on lists of values. -/
def beqList : List Value → List Value → Bool
  | [], [] => true
  | a :: as, b :: bs => beq a b && beqList as bs
  | _, _ => false
/-- `beq` on lists of entries. -/
def beqPairs : List (Value × Value) → List (Value × Value) → Bool
  | [], [] => true
  | (a, a') :: as, (b, b') :: bs => beq a b && beq a' b' && beqPairs as bs
  | _, _ => false
end

mutual
theorem eq_of_beq : (a b : Value) → beq a b = true → a = b
  | .array xs, b, h => by
    cases b <;> simp only [beq, Bool.false_eq_true] at h
    rw [eq_of_beqList xs _ h]
  | .slice xs, b, h => by
    cases b <;> simp only [beq, Bool.false_eq_true] at h
    rw [eq_of_beqList xs _ h]
  | .struct xs, b, h => by
    cases b <;> simp only [beq, Bool.false_eq_true] at h
    rw [eq_of_beqList xs _ h]
  | .map xs, b, h => by
    cases b <;> simp only [beq, Bool.false_eq_true] at h
    rw [eq_of_beqPairs xs _ h]
  | .ptr none, b, h => by
    cases b with
    | ptr p => cases p <;> simp_all [beq]
    | _ => simp [beq] at h
  | .ptr (some x), b, h => by
    cases b with
    | ptr p =>
      cases p with
      | none => simp [beq] at h
      | some y => simp only [beq] at h; rw [eq_of_beq x y h]
    | _ => simp [beq] at h
  | .bool _, b, h | .int _, b, h | .uint _, b, h | .float _, b, h | .complex .., b, h
  | .string _, b, h | .ref _, b, h => by cases b <;> simp_all [beq]
theorem eq_of_beqList : (xs ys : List Value) → beqList xs ys = true → xs = ys
  | [], [], _ => rfl
  | a :: as, b :: bs, h => by
    simp only [beqList, Bool.and_eq_true] at h
    rw [eq_of_beq a b h.1, eq_of_beqList as bs h.2]
  | [], _ :: _, h | _ :: _, [], h => by simp [beqList] at h
theorem eq_of_beqPairs : (xs ys : List (Value × Value)) → beqPairs xs ys = true → xs = ys
  | [], [], _ => rfl
  | (a, a') :: as, (b, b') :: bs, h => by
    simp only [beqPairs, Bool.and_eq_true] at h
    rw [eq_of_beq a b h.1.1, eq_of_beq a' b' h.1.2, eq_of_beqPairs as bs h.2]
  | [], _ :: _, h | _ :: _, [], h => by simp [beqPairs] at h
end

mutual
theorem beq_self : (a : Value) → beq a a = true
  | .bool _ | .int _ | .uint _ | .float _ | .complex .. | .string _ | .ref _ => by simp [beq]
  | .array xs | .slice xs | .struct xs => by simp only [beq]; exact beqList_self xs
  | .map xs => by simp only [beq]; exact beqPairs_self xs
  | .ptr none => rfl
  | .ptr (some a) => by simp only [beq]; exact beq_self a
theorem beqList_self : (xs : List Value) → beqList xs xs = true
  | [] => rfl
  | a :: as => by simp only [beqList, beq_self a, beqList_self as, Bool.and_self]
theorem beqPairs_self : (xs : List (Value × Value)) → beqPairs xs xs = true
  | [] => rfl
  | (a, b) :: as => by
    simp only [beqPairs, beq_self a, beq_self b, beqPairs_self as, Bool.and_self]
end

instance : BEq Value := ⟨beq⟩

instance : LawfulBEq Value where
  eq_of_beq h := eq_of_beq _ _ h
  rfl := beq_self _

instance : DecidableEq Value := fun a b => decidable_of_iff (beq a b = true)
  ⟨eq_of_beq a b, fun h => h ▸ beq_self a⟩

end Value

end OncXdr
