import OncXdr.Codec.Build
import OncXdr.Reflect.Access

/-!
# OncXdr.Codec.Env — what every codec call can see

`Env` fixes the program (its types), the width of `int` on the host, and the build: with the
`nounsafe` tag every codec goes through `reflect`; without it (the default) `xCodec` has the
`encodeUnsafe`/`decodeUnsafe` methods and structs, unions and pointers switch to them.

The codec of a key is the one `buildCodec` makes for it. The registry builds each key once
and hands the same codec to every later lookup (a placeholder forwards to it until it is
stored), so a codec call's children are the codecs of its keys.

Below: the loops the codecs share (fields, elements, map entries), and the union's switch
value and arm lookup.
-/

namespace OncXdr

/-- The program, the host's `int`, and the build. -/
structure Env where
  U : Universe
  w : WordSize
  /-- Built with the `nounsafe` tag: every codec works through `reflect`. -/
  reflectOnly : Bool

namespace Env

variable (e : Env)

/-- The codec stored for a key, or the panic raised while building it. -/
def codec (k : Key) : Except String Codec := (buildCodec e.U e.w k).map Built.codec

/-- Whether field `i` of the struct type `t` is exported (`PkgPath == ""`). -/
def exported (t : TypeId) (i : Nat) : Bool :=
  match (e.U.info t).shape with
  | .struct fs => (fs.get? i).elim true Field.exported
  | _ => true

/-- `t.Elem().Kind()`. -/
def elemKind (t : TypeId) : Kind := e.U.kind (e.U.elem t)

/-- Whether `reflect.ValueOf(s)` for `s : []byte` is assignable to the slice type `t`: its
element type must be `uint8` itself. -/
def bytesAssignable (t : TypeId) : Bool :=
  e.U.kind (e.U.elem t) == .uint8 && (e.U.info (e.U.elem t)).predeclared

/-- In the default build a struct or union given an addressable value works on its address. -/
def structPath : Path → Path
  | .reflect true ro => if e.reflectOnly then .reflect true ro else .mem
  | p => p

/-- `ptrCodec` passes the pointee on as `v.Elem()` (`nounsafe`) or as its address. -/
def ptrPath : Path → Path
  | .reflect _ ro => if e.reflectOnly then .reflect true ro else .mem
  | .mem => .mem

/-- With `nounsafe`, structs stay on `reflect`. -/
theorem structPath_of_reflectOnly (h : e.reflectOnly = true) (p : Path) : e.structPath p = p := by
  cases p with
  | reflect addr ro => cases addr <;> simp [structPath, h]
  | mem => rfl

/-- A struct that is not addressable is encoded through `reflect` in either build. -/
@[simp] theorem structPath_unaddressable (ro : Bool) :
    e.structPath (.reflect false ro) = .reflect false ro := rfl

end Env

/-! ## Loops shared by the codecs -/

/-- Encoding parts one after the other: the bytes of all, or the first failure. -/
def encodeEach {α : Type} (f : α → Except Fail (List UInt8)) : List α → Except Fail (List UInt8)
  | [] => .ok []
  | x :: xs => do
    let a ← f x
    let r ← encodeEach f xs
    pure (a ++ r)

/-- Decoding into each of the values in turn (array and slice elements). -/
def decodeEach (f : Value → Input → Except Fail (Value × Input)) :
    List Value → Input → Except Fail (List Value × Input)
  | [], inp => .ok ([], inp)
  | x :: xs, inp => do
    let (y, inp) ← f x inp
    let (ys, inp) ← decodeEach f xs inp
    pure (y :: ys, inp)

/-- Decoding the fields of a struct in the order of the records, each into its field. -/
def decodeFields (f : FieldRec → Value → Input → Except Fail (Value × Input)) :
    List FieldRec → List Value → Input → Except Fail (List Value × Input)
  | [], fs, inp => .ok (fs, inp)
  | r :: rs, fs, inp => do
    let (x, inp) ← f r (fs.getD r.index default) inp
    decodeFields f rs (fs.set r.index x) inp

/-- `v.SetMapIndex(k, vv)`: the entry of an equal key is replaced, a new key is added. -/
def mapInsert (kvs : List (Value × Value)) (k v : Value) : List (Value × Value) :=
  if kvs.any (·.1 == k) then kvs.map (fun kv => if kv.1 == k then (k, v) else kv)
  else kvs ++ [(k, v)]

/-- `l` rounds of `mapCodec.Decode`'s loop: decode a key, then a value, then insert. -/
def decodeEntries (fk fv : Input → Except Fail (Value × Input)) :
    Nat → List (Value × Value) → Input → Except Fail (List (Value × Value) × Input)
  | 0, acc, inp => .ok (acc, inp)
  | n + 1, acc, inp => do
    let (k, inp) ← fk inp
    let (v, inp) ← fv inp
    decodeEntries fk fv n (mapInsert acc k v) inp

/-! ## Unions -/

/-- `swVal`: the switch field's value as a `uint32` (`bool` is `0`/`1`; `int32` is
reinterpreted). -/
def switchValue : SwitchKind → Value → Nat
  | .switchKindBool, v => if v.toBool then 1 else 0
  | .switchKindUint, v => v.toUint % 2 ^ 32
  | .switchKindInt, v => (v.toInt % 2 ^ 32).toNat

/-- `caseField`: the arm of a switch value, from the case table, else the default. -/
def armIndex (cases : List (Nat × Nat)) (dflt : Option Nat) (sw : Nat) : Option Nat :=
  match cases.lookup sw with
  | some i => some i
  | none => dflt

/-- The error of a switch value with no arm: `WithFieldError(ErrUnionSwitchArmUndefined,
c.name, "?", "union:0x-1")`, the note formatting `caseField = -1`. -/
def armUndefined (name : String) : XdrError :=
  withFieldError .unionSwitchArmUndefined name "?" (some (.unionCase (-1)))

/-! ## Equation lemmas -/

section Lemmas

variable {α : Type} (f : α → Except Fail (List UInt8))

@[simp] theorem encodeEach_nil : encodeEach f [] = .ok [] := rfl

theorem encodeEach_cons (x : α) (xs : List α) :
    encodeEach f (x :: xs) = (do let a ← f x; let r ← encodeEach f xs; pure (a ++ r)) := rfl

/-- When every part succeeds, the encoding is the concatenation of the parts. -/
theorem encodeEach_ok (g : α → List UInt8) (h : ∀ x, f x = .ok (g x)) (xs : List α) :
    encodeEach f xs = .ok (xs.flatMap g) := by
  induction xs with
  | nil => rfl
  | cons x xs ih => simp [encodeEach_cons, h, ih, bind, Except.bind, pure, Except.pure]

end Lemmas

end OncXdr
