import OncXdr.Wire.Word

/-!
# OncXdr.Tags.Tag — the packed tag sequence of `internal/tags`

An `XDRTag` is a byte string of entries, one per layer of type nesting. An entry is a kind
byte, followed by one 32-bit big-endian value when the kind is in `0x80 … 0xBF`, or by a
32-bit count and that many values when it is `0xC0` or above. The byte string itself is the
registry's key (`ByteString`).

The accessors index into the bytes as the source does. Go panics on an index past the end;
every tag the engine builds is well formed, and here such a read yields `0`.
-/

namespace OncXdr

/-- `type XDRTag []byte`. -/
abbrev XDRTag := List UInt8

/-- `type XDRTagKind byte`. -/
abbrev XDRTagKind := UInt8

/-! The kinds of entry, under the source's constant names. -/

namespace XDRTagKind

/-- No modification at this layer. -/
def Noop : XDRTagKind := 0x00
/-- `-`: skip the field. -/
def Skip : XDRTagKind := 0x01
/-- `opt`: an XDR optional. -/
def Opt : XDRTagKind := 0x02
/-- `opaque`: bytes encoded densely. -/
def Opaque : XDRTagKind := 0x03
/-- `union:switch`. -/
def UnionSwitch : XDRTagKind := 0x04
/-- `union:default`. -/
def UnionDefault : XDRTagKind := 0x05
/-- `len:N`. -/
def Len : XDRTagKind := 0x86
/-- `maxlen:N`. -/
def MaxLen : XDRTagKind := 0x87
/-- `union:A,B,…`. -/
def UnionCases : XDRTagKind := 0xC8

/-- `Noop` is none of the kinds a builder looks for. -/
theorem noop_ne : Noop ≠ Opt ∧ Noop ≠ Len ∧ Noop ≠ MaxLen ∧ Noop ≠ Opaque := by decide

end XDRTagKind

namespace XDRTag

/-- `Empty`. -/
def empty (t : XDRTag) : Bool := t.length == 0

/-- `Kind`: the first byte, or `Noop` for the empty tag. -/
def kind (t : XDRTag) : XDRTagKind := t.headD XDRTagKind.Noop

/-- `valAt`: the big-endian 32-bit value at byte offset `offs`. -/
def valAt (t : XDRTag) (offs : Nat) : Nat :=
  fromBE [t.getD offs 0, t.getD (offs + 1) 0, t.getD (offs + 2) 0, t.getD (offs + 3) 0]

/-- `thisLen`: bytes taken by the first entry. -/
def thisLen (t : XDRTag) : Nat :=
  match t with
  | [] => 0
  | k :: _ => if k < 0x80 then 1 else if k < 0xC0 then 5 else 5 + t.valAt 1 * 4

/-- `Next`: the entries after the first. -/
def next (t : XDRTag) : XDRTag :=
  if t.length = t.thisLen then [] else t.drop t.thisLen

/-- `OnlyValue`. -/
def onlyValue (t : XDRTag) : Nat := t.valAt 1

/-- `ValueRange`: the bounds `[i, n)` of the value indices of the first entry. -/
def valueRange (t : XDRTag) : Nat × Nat :=
  if t.kind < 0x80 then (0, 0) else if t.kind < 0xC0 then (0, 1) else (1, 1 + t.valAt 1)

/-- `Value`: the value at index `n` of the first entry. -/
def value (t : XDRTag) (n : Nat) : Nat := t.valAt (1 + 4 * n)

/-- `Append(k, values...)`. The source panics when `values` does not have the arity the kind
requires; every call passes that arity. -/
def append (t : XDRTag) (k : XDRTagKind) (values : List Nat) : XDRTag :=
  if k < 0x80 then t ++ [k]
  else if k < 0xC0 then t ++ [k] ++ be 4 (values.headD 0)
  else t ++ [k] ++ be 4 values.length ++ values.flatMap (be 4)

/-- `Prepend(k, values...)`. -/
def prepend (t : XDRTag) (k : XDRTagKind) (values : List Nat) : XDRTag :=
  XDRTag.append [] k values ++ t

/-- The loop of `Trimmed`: `e` is the end of the entries walked so far and `mark` the end of
the last one that is not a `Noop`. Each turn drops at least one byte, so the tag's length
bounds the turns. -/
def trimmedLoop : Nat → XDRTag → Nat → Nat → Nat
  | 0, _, _, mark => mark
  | fuel + 1, ct, e, mark =>
    if XDRTag.empty ct then mark
    else trimmedLoop fuel (XDRTag.next ct) (e + XDRTag.thisLen ct)
      (if XDRTag.kind ct != XDRTagKind.Noop then e + XDRTag.thisLen ct else mark)

/-- `Trimmed`: the tag with its trailing `Noop` entries removed. -/
def trimmed (t : XDRTag) : XDRTag := t.take (trimmedLoop t.length t 0 0)

/-- `ByteString`: the registry key of the tag. -/
def byteString (t : XDRTag) : List UInt8 := t

/-! The empty tag, which untagged lookups use. -/

@[simp] theorem kind_nil : XDRTag.kind [] = XDRTagKind.Noop := rfl
@[simp] theorem next_nil : XDRTag.next [] = [] := rfl
@[simp] theorem empty_nil : XDRTag.empty [] = true := rfl

end XDRTag

end OncXdr
