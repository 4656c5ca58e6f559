import OncXdr.Reflect.Type
import OncXdr.Tags.Tag

/-!
# OncXdr.Wire.Error — what can go wrong

The error values of `internal/errors`, the messages `ParseTag` and the builders format with
`fmt.Errorf` (kept as structured data: the constructor is the message, its fields the `%s`
arguments), and the three ways a call can end badly: an `error` return, a Go `panic`, or — in
this model only — running out of the fuel that bounds recursion.
-/

namespace OncXdr

/-- The errors `ParseTag` returns, one constructor per message. -/
inductive TagError
  /-- "Found field annotated with `union:switch` tag which is not legal in a struct which is
  not a union or already has a switch" -/
  | switchNotLegal
  /-- "Type %s not legal for union switch" -/
  | switchType (t : TypeId)
  /-- "'%s' union tag not valid as we are not inside a union" -/
  | notInUnion (p : List Char)
  /-- "Parsing `union:` values: %v" -/
  | unionValues (p : List Char)
  /-- "Every field inside a union struct must have a `union:` leading tag" -/
  | missingUnionTag
  /-- "Type %s cannot be 'opt'" -/
  | cannotBeOpt (t : TypeId)
  /-- "'opaque' label applied to %s, but only applicable to bytes" -/
  | opaqueNotBytes (t : TypeId)
  /-- "Error parsing XDR `len:` tag: %v" -/
  | lenValue (p : List Char)
  /-- "Cannot apply `len:` tag to an array; just specify length directly" -/
  | lenOnArray
  /-- "Cannot apply `len:` tag to %s; must be slice, string or map" -/
  | lenOnType (t : TypeId)
  /-- "Error parsing XDR `maxlen:` tag: %v" -/
  | maxlenValue (p : List Char)
  /-- "Cannot apply `maxlen:` tag to %s; must be slice, string or map" -/
  | maxlenOnType (t : TypeId)
  /-- "Unknown XDR tag '%s'" -/
  | unknown (p : List Char)
  /-- "Trailing tags (%v) after reaching type %s" -/
  | trailing (parts : List (List Char)) (t : TypeId)

/-- The third part `WithFieldError` is given by the union codec. -/
inductive Note
  /-- `"union:switch"` -/
  | unionSwitch
  /-- `fmt.Sprintf("union:0x%x", v)` for a switch value or arm index. -/
  | unionCase (v : Int)

/-- One step of a `FieldError` path: the type's name (`"<anonymous>"` when it has none), the
field's name, and the union note if any. -/
structure Segment where
  typeName : String
  fieldName : String
  note : Option Note

/-- The error values of the engine. -/
inductive XdrError
  /-- `LengthError{Actual, Max}` -/
  | lengthError (actual max : Nat)
  /-- `ErrLengthIncorrect` -/
  | lengthIncorrect
  /-- `ErrUnionSwitchArmUndefined` -/
  | unionSwitchArmUndefined
  /-- `ErrNotPointer` -/
  | notPointer
  /-- `ErrInvalidValue` -/
  | invalidValue
  /-- `ErrNilPointer` -/
  | nilPointer
  /-- `InvalidTypeError{T}` -/
  | invalidType (t : TypeId)
  /-- `InvalidTagForTypeError{T, Tag}` -/
  | invalidTagForType (t : TypeId) (tag : XDRTag)
  /-- `io.EOF` -/
  | eof
  /-- `io.ErrUnexpectedEOF` -/
  | unexpectedEOF
  /-- `FieldError{Underlying, Path}` -/
  | field (underlying : XdrError) (path : List Segment)
  /-- "Parsing tag of field '%s' of '%s': %v" -/
  | fieldTag (name : String) (t : TypeId) (e : TagError)
  /-- "Union value 0x%08x of %s duplicated" -/
  | unionValueDuplicated (v : Nat) (t : TypeId)
  /-- "Default case of %s duplicated" -/
  | defaultCaseDuplicated (t : TypeId)
  /-- "string must not gave any following tags (%s)" -/
  | stringFollowingTags (tag : XDRTag)
  /-- An error returned by code outside the engine (`MarshalXDR`, a registered codec). -/
  | user (code : Nat)

/-- `WithFieldError(err, typeName, fieldName[, note])`: a `FieldError` gains the new segment in
front of its path; any other error is wrapped in one. -/
def withFieldError (err : XdrError) (typeName fieldName : String) (note : Option Note) :
    XdrError :=
  let seg : Segment :=
    ⟨if typeName = "" then "<anonymous>" else typeName, fieldName, note⟩
  match err with
  | .field u path => .field u (seg :: path)
  | e => .field e [seg]

/-- How a call ends when it does not return normally. -/
inductive Fail
  /-- A returned `error`. -/
  | err (e : XdrError)
  /-- A Go `panic` with its message. -/
  | panic (msg : String)
  /-- The model's recursion bound was reached. -/
  | outOfFuel

/-- Wrapping applies to returned errors; a panic passes through `WithFieldError` untouched. -/
def Fail.withField (f : Fail) (typeName fieldName : String) (note : Option Note) : Fail :=
  match f with
  | .err e => .err (withFieldError e typeName fieldName note)
  | f => f

end OncXdr
