import OncXdr.Codec.Node

/-!
# OncXdr.Codec.Build — `buildCodec` and the builders it calls

`buildCodec(t, tag)` picks a builder: `Opt` on the outer layer first, then by kind (pointer,
string, array, slice, map), then — only for an empty tag — `Marshaler`, the primitive kinds
and structs. A builder that needs a child codec calls `cr.getCodec(t', tag')`; here it records
the key `(t', tag')`, and `Built.lookups` lists the calls in order.

Length maximums are read as `uint32` and clamped to `maxInt` of the host's `int`
(`origMax` keeps the declared one for error reports). `makeStructCodec` parses every field's
tag; it can panic, which is why `buildCodec` returns `Except String`: the string is the panic
message.
-/

namespace OncXdr

/-- The values of the first entry, `Value(j)` for `j` in `ValueRange()`. -/
def XDRTag.values (t : XDRTag) : List Nat :=
  (List.range' (XDRTag.valueRange t).1 ((XDRTag.valueRange t).2 - (XDRTag.valueRange t).1)).map
    (XDRTag.value t)

section Builders

variable (U : Universe) (w : WordSize)

/-- The declared maximum of a slice or map layer: `maxlen:N`, or `^uint32(0)` with no tag. -/
def layerMax (tag : XDRTag) : Option Nat :=
  if XDRTag.kind tag = XDRTagKind.MaxLen then some (XDRTag.onlyValue tag)
  else if XDRTag.kind tag = XDRTagKind.Noop then some maxUint32
  else none

/-- "Cap lengths at maxInt". -/
def clampMax (maxlen : Nat) : Nat := if w.maxInt < maxlen then w.maxInt else maxlen

/-- `makeStringCodec`. A fixed length over `maxInt` can never be met, so it is a
`LengthError` codec; a maximum over `maxInt` is clamped. -/
def makeStringCodec (t : TypeId) (tag : XDRTag) : Codec :=
  if !XDRTag.empty (XDRTag.next tag) then .errorCodec (.stringFollowingTags tag)
  else
    let spec : Option (Nat × Bool) :=
      if XDRTag.kind tag = XDRTagKind.Len then some (XDRTag.onlyValue tag, true)
      else if XDRTag.kind tag = XDRTagKind.MaxLen then some (XDRTag.onlyValue tag, false)
      else if XDRTag.kind tag = XDRTagKind.Noop then some (maxUint32, false)
      else none
    match spec with
    | none => .errorCodec (.invalidTagForType t tag)
    | some (len, true) =>
      if w.maxInt < len then .errorCodec (.lengthError len len) else .fixedStringCodec len
    | some (len, false) => .varStringCodec (clampMax w len) len

/-- An untagged string has the maximum `^uint32(0)`, clamped to `maxInt`. -/
theorem makeStringCodec_nil (t : TypeId) :
    makeStringCodec w t [] = .varStringCodec (clampMax w maxUint32) maxUint32 := rfl

/-- `makeArrayCodec` for `[n]elem`: no modifier of its own; `opaque` on the element makes it a
fixed opaque. -/
def makeArrayCodec (t : TypeId) (n elem : Nat) (tag : XDRTag) : Built :=
  if XDRTag.kind tag ≠ XDRTagKind.Noop then ⟨.errorCodec (.invalidTagForType t tag), []⟩
  else if XDRTag.kind (XDRTag.next tag) = XDRTagKind.Opaque then ⟨.opaqueArrayCodec n, []⟩
  else ⟨.arrayCodec ⟨elem, XDRTag.next tag⟩ n, [⟨elem, XDRTag.next tag⟩]⟩

/-- `makeSliceCodec` for `[]elem`: `maxlen:N` or nothing; `opaque` on the element makes it a
variable opaque. -/
def makeSliceCodec (t elem : TypeId) (tag : XDRTag) : Built :=
  match layerMax tag with
  | none => ⟨.errorCodec (.invalidTagForType t tag), []⟩
  | some maxlen =>
    if XDRTag.kind (XDRTag.next tag) = XDRTagKind.Opaque then
      ⟨.opaqueSliceCodec (clampMax w maxlen) maxlen, []⟩
    else ⟨.sliceCodec ⟨elem, XDRTag.next tag⟩ (clampMax w maxlen) maxlen, [⟨elem, XDRTag.next tag⟩]⟩

/-- `makeMapCodec` for `map[key]elem`: the key's codec takes no tag. -/
def makeMapCodec (t key elem : TypeId) (tag : XDRTag) : Built :=
  match layerMax tag with
  | none => ⟨.errorCodec (.invalidTagForType t tag), []⟩
  | some maxlen =>
    ⟨.mapCodec ⟨key, []⟩ ⟨elem, XDRTag.next tag⟩ (clampMax w maxlen) maxlen,
      [⟨key, []⟩, ⟨elem, XDRTag.next tag⟩]⟩

/-- `makeOptCodec`: the same type again, with the `Opt` replaced by `Noop`. -/
def makeOptCodec (t : TypeId) (tag : XDRTag) : Built :=
  let inner : Key := ⟨t, XDRTag.trimmed (XDRTag.prepend (XDRTag.next tag) XDRTagKind.Noop [])⟩
  ⟨.optCodec inner, [inner]⟩

/-- `makePtrCodec`: the pointee, under the next layer. -/
def makePtrCodec (elem : TypeId) (tag : XDRTag) : Built :=
  ⟨.ptrCodec ⟨elem, XDRTag.next tag⟩, [⟨elem, XDRTag.next tag⟩]⟩

/-! ## `makeStructCodec` -/

/-- The first loop of `makeStructCodec`: parse tags until a field that is not skipped says
whether the struct is a union. Gives that field (index, field, tag, verdict) and the fields
after it, `none` when every field is skipped, or the error of a tag that does not parse. The
outer `Except` is the loop's panic. -/
def classifyFields (t : TypeId) :
    List (Nat × Field) →
      Except String (Except XdrError (Option (Nat × Field × XDRTag × IsInUnion × List (Nat × Field))))
  | [] => .ok (.ok none)
  | (i, f) :: rest =>
    match parseTag U f.type f.tag .maybeInUnion with
    | .error e => .ok (.error (.fieldTag f.name t e))
    | .ok (tag, isUnion) =>
      if XDRTag.kind tag = XDRTagKind.Skip then classifyFields t rest
      else if isUnion = .maybeInUnion then
        .error "We found an unskipped field but somehow don't know if we're a union or not"
      else .ok (.ok (some (i, f, tag, isUnion, rest)))

/-- The second loop of a struct: every field not skipped becomes a field record. -/
def structFields (t : TypeId) (name : String) :
    List (Nat × Field) → List FieldRec → List Key → Built
  | [], fields, lookups => ⟨.structCodec name fields, lookups⟩
  | (i, f) :: rest, fields, lookups =>
    match parseTag U f.type f.tag .notInUnion with
    | .error e => ⟨.errorCodec (.fieldTag f.name t e), lookups⟩
    | .ok (tag, _) =>
      if XDRTag.kind tag = XDRTagKind.Skip then structFields t name rest fields lookups
      else structFields t name rest (fields ++ [⟨i, f.name, ⟨f.type, tag⟩⟩])
        (lookups ++ [⟨f.type, tag⟩])

/-- Registering the case values of arm `i`; a value seen before is an error. -/
def addCases (t : TypeId) (i : Nat) : List Nat → List (Nat × Nat) → Except XdrError (List (Nat × Nat))
  | [], cases => .ok cases
  | v :: vs, cases =>
    if (cases.lookup v).isSome then .error (.unionValueDuplicated v t)
    else addCases t i vs (cases ++ [(v, i)])

/-- The loop over a union's arms: the arm's record is made first, then its case values or its
`default` are registered. -/
def unionFields (t : TypeId) (name : String) (sw : FieldRec) (kind : SwitchKind) :
    List (Nat × Field) → List FieldRec → List (Nat × Nat) → Option Nat → List Key → Built
  | [], bodies, cases, dflt, lookups => ⟨.unionCodec name sw bodies cases dflt kind, lookups⟩
  | (i, f) :: rest, bodies, cases, dflt, lookups =>
    match parseTag U f.type f.tag .inUnion with
    | .error e => ⟨.errorCodec (.fieldTag f.name t e), lookups⟩
    | .ok (tag, _) =>
      if XDRTag.kind tag = XDRTagKind.Skip then unionFields t name sw kind rest bodies cases dflt lookups
      else
        let k : Key := ⟨f.type, XDRTag.next tag⟩
        let bodies := bodies ++ [⟨i, f.name, k⟩]
        let lookups := lookups ++ [k]
        if XDRTag.kind tag = XDRTagKind.UnionCases then
          match addCases t i (XDRTag.values tag) cases with
          | .error e => ⟨.errorCodec e, lookups⟩
          | .ok cases => unionFields t name sw kind rest bodies cases dflt lookups
        else if XDRTag.kind tag = XDRTagKind.UnionDefault then
          if dflt.isSome then ⟨.errorCodec (.defaultCaseDuplicated t), lookups⟩
          else unionFields t name sw kind rest bodies cases (some i) lookups
        else unionFields t name sw kind rest bodies cases dflt lookups

/-- The kind of union switch `makeStructCodec` accepts for a field kind. -/
def switchKindOf : Kind → Option SwitchKind
  | .int32 => some .switchKindInt
  | .uint32 => some .switchKindUint
  | .bool => some .switchKindBool
  | _ => none

/-- `makeStructCodec`: a struct codec, a union codec (when the first field not skipped is the
union switch), or the error codec of a field's tag. The switch field's type must be `int32`,
`uint32` or `bool`, and the source panics on any other. -/
def makeStructCodec (t : TypeId) (fs : List Field) : Except String Built :=
  let name := (U.info t).name
  match classifyFields U t fs.enum with
  | .error m => .error m
  | .ok (.error e) => .ok ⟨.errorCodec e, []⟩
  | .ok (.ok none) => .ok ⟨.structCodec name [], []⟩
  | .ok (.ok (some (i, f, tag, isUnion, rest))) =>
    match isUnion with
    | .notInUnion => .ok (structFields U t name rest [⟨i, f.name, ⟨f.type, tag⟩⟩] [⟨f.type, tag⟩])
    | .inUnion =>
      if XDRTag.kind tag ≠ XDRTagKind.UnionSwitch then .error "First element of union not switch"
      else match switchKindOf (U.kind f.type) with
        | none => .error "Switch field of union not valid (must be int32, uint32 or bool)"
        | some kind =>
          let k : Key := ⟨f.type, XDRTag.next tag⟩
          .ok (unionFields U t name ⟨i, f.name, k⟩ kind rest [] [] none [k])
    | .maybeInUnion => .error "unreachable"

/-! ## `buildCodec` -/

/-- The codec of a kind that admits no tag. -/
def primitiveCodec : Kind → Option Codec
  | .bool => some .boolCodec
  | .int8 => some (.intCodec 8)
  | .int16 => some (.intCodec 16)
  | .int32 => some (.intCodec 32)
  | .uint8 => some (.uintCodec 8)
  | .uint16 => some (.uintCodec 16)
  | .uint32 => some (.uintCodec 32)
  | .int64 => some .hyperCodec
  | .uint64 => some .uhyperCodec
  | .float32 => some .floatCodec
  | .float64 => some .doubleCodec
  | .complex64 => some .complex64Codec
  | .complex128 => some .complex128Codec
  | _ => none

/-- `buildCodec(t, tag)`. -/
def buildCodec (k : Key) : Except String Built :=
  let t := k.type
  let tag := k.tag
  if XDRTag.kind tag = XDRTagKind.Opt then .ok (makeOptCodec t tag)
  else match (U.info t).shape with
    | .ptr e => .ok (makePtrCodec e tag)
    | .scalar .string => .ok ⟨makeStringCodec w t tag, []⟩
    | .array n e => .ok (makeArrayCodec t n e tag)
    | .slice e => .ok (makeSliceCodec w t e tag)
    | .map kt e => .ok (makeMapCodec w t kt e tag)
    | .struct fs =>
      if !XDRTag.empty tag then .ok ⟨.errorCodec (.invalidTagForType t tag), []⟩
      else if (U.info t).implementsMarshaler then .ok ⟨.marshalerCodec, []⟩
      else makeStructCodec U t fs
    | .scalar kd =>
      if !XDRTag.empty tag then .ok ⟨.errorCodec (.invalidTagForType t tag), []⟩
      else if (U.info t).implementsMarshaler then .ok ⟨.marshalerCodec, []⟩
      else match primitiveCodec kd with
        | some c => .ok ⟨c, []⟩
        | none => .ok ⟨.errorCodec (.invalidType t), []⟩

/-- An untagged `string` type gets a variable string codec. -/
theorem buildCodec_base_string {t : TypeId} (ht : (U.info t).shape = .scalar .string) :
    buildCodec U w ⟨t, []⟩ = .ok ⟨.varStringCodec (clampMax w maxUint32) maxUint32, []⟩ := by
  simp only [buildCodec, ht, XDRTag.kind_nil, XDRTagKind.noop_ne.1, if_false, makeStringCodec_nil]

end Builders

end OncXdr
