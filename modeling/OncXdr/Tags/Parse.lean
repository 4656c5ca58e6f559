import OncXdr.Reflect.Universe
import OncXdr.Tags.Text

/-!
# OncXdr.Tags.Parse — `ParseTag`

`ParseTag(t, stags, &isUnion)` turns the text of an `xdr:"…"` tag into an `XDRTag`. A leading
`union:` token is about the enclosing struct and does not consume a type layer; each
`/`-separated token after it applies to one layer, starting at `t` and descending through
arrays, maps, pointers and slices. `isUnion` records what the struct's fields have said so
far about whether it is a union; here it is passed in and returned.
-/

namespace OncXdr

open Text

/-- `IsInUnion`. -/
inductive IsInUnion
  | maybeInUnion
  | notInUnion
  | inUnion
  deriving DecidableEq, Repr

/-- `canBeOpt`: pointers and interfaces. -/
def canBeOpt (k : Kind) : Bool := k == .interface || k == .ptr

/-- `validForUnionSwitch`. -/
def validForUnionSwitch (k : Kind) : Bool :=
  k == .bool || k == .int || k == .int8 || k == .int16 || k == .int32 || k == .int64 ||
    k == .uint || k == .uint8 || k == .uint16 || k == .uint32

/-- `skipTag`, what `-` parses to. -/
def skipTag : XDRTag := [XDRTagKind.Skip]

variable (U : Universe)

/-- One turn of the layer loop of `ParseTag`, before the descent: the modifier `p` (untrimmed)
at type `t`. `opaque` on an array or slice applies to its element, with a `Noop` for the
container layer; the type it returns is the one the descent starts from. -/
def parseLayer (t : TypeId) (xt : XDRTag) (p : List Char) : Except TagError (XDRTag × TypeId) :=
  let p := trimSpace p
  if p = [] then .ok (XDRTag.append xt XDRTagKind.Noop [], t)
  else if p = "opt".toList then
    if canBeOpt (U.kind t) then .ok (XDRTag.append xt XDRTagKind.Opt [], t)
    else .error (.cannotBeOpt t)
  else if p = "opaque".toList then
    let (xt, t) :=
      if U.kind t = .array ∨ U.kind t = .slice then (XDRTag.append xt XDRTagKind.Noop [], U.elem t)
      else (xt, t)
    if U.kind t = .int8 ∨ U.kind t = .uint8 then .ok (XDRTag.append xt XDRTagKind.Opaque [], t)
    else .error (.opaqueNotBytes t)
  else if hasPrefix p "len:".toList then
    match parseUint32 (p.drop 4) with
    | none => .error (.lenValue p)
    | some len =>
      if U.kind t = .array then .error .lenOnArray
      else if U.kind t = .string ∨ U.kind t = .slice then
        .ok (XDRTag.append xt XDRTagKind.Len [len], t)
      else .error (.lenOnType t)
  else if hasPrefix p "maxlen:".toList then
    match parseUint32 (p.drop 7) with
    | none => .error (.maxlenValue p)
    | some len =>
      if U.kind t = .string ∨ U.kind t = .slice then
        .ok (XDRTag.append xt XDRTagKind.MaxLen [len], t)
      else .error (.maxlenOnType t)
  else .error (.unknown p)

/-- The layer loop of `ParseTag`: after every token but the last, descend one layer, which only
arrays, maps, pointers and slices have. -/
def parseLayers : List (List Char) → TypeId → XDRTag → Except TagError XDRTag
  | [], _, xt => .ok xt
  | p :: ps, t, xt =>
    match parseLayer U t xt p with
    | .error e => .error e
    | .ok (xt, t) =>
      match ps with
      | [] => .ok xt
      | _ :: _ =>
        if U.kind t = .array ∨ U.kind t = .map ∨ U.kind t = .ptr ∨ U.kind t = .slice then
          parseLayers ps (U.elem t) xt
        else .error (.trailing (p :: ps) t)

/-- The leading `union:` token: `switch` starts a union (only once, and only on a field whose
type may be a switch); the others name the arm's cases and need a union. -/
def parseUnionHead (t : TypeId) (p : List Char) (isUnion : IsInUnion) :
    Except TagError (XDRTag × IsInUnion) :=
  if p = "union:switch".toList then
    if isUnion ≠ .maybeInUnion then .error .switchNotLegal
    else if !validForUnionSwitch (U.kind t) then .error (.switchType t)
    else .ok (XDRTag.append [] XDRTagKind.UnionSwitch [], .inUnion)
  else if isUnion ≠ .inUnion then .error (.notInUnion p)
  else if p = "union:false".toList then .ok (XDRTag.append [] XDRTagKind.UnionCases [0], isUnion)
  else if p = "union:true".toList then .ok (XDRTag.append [] XDRTagKind.UnionCases [1], isUnion)
  else if p = "union:default".toList then
    .ok (XDRTag.append [] XDRTagKind.UnionDefault [], isUnion)
  else match parseU32s (trimPrefix p "union:".toList) with
    | none => .error (.unionValues p)
    | some vals => .ok (XDRTag.append [] XDRTagKind.UnionCases vals, isUnion)

/-- `ParseTag(t, stags, &isUnion)`: the trimmed tag, and the new `isUnion`. -/
def parseTag (t : TypeId) (stags : List Char) (isUnion : IsInUnion) :
    Except TagError (XDRTag × IsInUnion) :=
  let stags := trimSpace stags
  if stags = "-".toList then .ok (skipTag, isUnion)
  else
    let parts := split '/' stags
    let p0 := parts.headD []
    if hasPrefix p0 "union:".toList then
      match parseUnionHead U t p0 isUnion with
      | .error e => .error e
      | .ok (xt, isUnion) =>
        match parseLayers U parts.tail t xt with
        | .error e => .error e
        | .ok xt => .ok (XDRTag.trimmed xt, isUnion)
    else if isUnion = .inUnion then .error .missingUnionTag
    else
      match parseLayers U parts t [] with
      | .error e => .error e
      | .ok xt => .ok (XDRTag.trimmed xt, .notInUnion)

end OncXdr
