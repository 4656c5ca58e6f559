import OncXdr.Codec.Run

/-!
# OncXdr.Codec.Marshaler — when `MarshalXDR` and `UnmarshalXDR` are called

`buildCodec` asks `t.Implements(marshalerType)` only for struct and scalar types with an empty
tag, after it has dispatched pointers, strings, arrays, slices and maps on their kind. So
`marshalerCodec` is built only for a type whose own method set has the methods, that is one
whose methods have value receivers (`buildCodec_marshaler`). A type that declares them on a
pointer receiver is encoded field by field, and so is a pointer to it: its methods are never
called.
-/

namespace OncXdr

variable (U : Universe) (w : WordSize)

/-! ## The builders that never make a `marshalerCodec` -/

/-- `makeStructCodec`'s field loop ends in a struct codec or an error codec. -/
theorem structFields_ne_marshaler (t : TypeId) (name : String) (rest : List (Nat × Field))
    (fields : List FieldRec) (lookups : List Key) :
    (structFields U t name rest fields lookups).codec ≠ .marshalerCodec := by
  induction rest generalizing fields lookups with
  | nil => simp [structFields]
  | cons p rest ih =>
    simp only [structFields]
    split
    · simp
    · split <;> apply ih

/-- The arm loop ends in a union codec or an error codec. -/
theorem unionFields_ne_marshaler (t : TypeId) (name : String) (sw : FieldRec) (kind : SwitchKind)
    (rest : List (Nat × Field)) (bodies : List FieldRec) (cases : List (Nat × Nat))
    (dflt : Option Nat) (lookups : List Key) :
    (unionFields U t name sw kind rest bodies cases dflt lookups).codec ≠ .marshalerCodec := by
  induction rest generalizing bodies cases dflt lookups with
  | nil => simp [unionFields]
  | cons p rest ih =>
    simp only [unionFields]
    split
    · simp
    · split
      · apply ih
      · split
        · split
          · simp
          · apply ih
        · split
          · split
            · simp
            · apply ih
          · apply ih

theorem makeStructCodec_ne_marshaler {t : TypeId} {fs : List Field} {b : Built}
    (h : makeStructCodec U t fs = .ok b) : b.codec ≠ .marshalerCodec := by
  unfold makeStructCodec at h
  split at h
  · cases h
  · cases h; simp
  · cases h; simp
  · split at h
    · cases h; apply structFields_ne_marshaler
    · split at h
      · cases h
      · split at h
        · cases h
        · cases h; apply unionFields_ne_marshaler
    · cases h

theorem makeStringCodec_ne_marshaler (t : TypeId) (tag : XDRTag) :
    makeStringCodec w t tag ≠ .marshalerCodec := by
  unfold makeStringCodec
  split_ifs <;> simp
  split_ifs <;> simp

theorem primitiveCodec_ne_marshaler (kd : Kind) : primitiveCodec kd ≠ some .marshalerCodec := by
  cases kd <;> simp [primitiveCodec]

/-- `buildCodec` makes a `marshalerCodec` exactly for an untagged struct or non-string scalar
type whose own method set has `MarshalXDR`, that is whose methods have value receivers. -/
theorem buildCodec_marshaler_iff (k : Key) :
    (∃ b, buildCodec U w k = .ok b ∧ b.codec = .marshalerCodec) ↔
      k.tag = [] ∧ (U.info k.type).receiver = .value ∧
        ((∃ fs, (U.info k.type).shape = .struct fs) ∨
          ∃ kd, (U.info k.type).shape = .scalar kd ∧ kd ≠ .string) := by
  constructor
  · rintro ⟨b, h, hb⟩
    unfold buildCodec at h
    dsimp only at h
    split at h
    · cases h; simp [makeOptCodec] at hb
    · split at h
      · cases h; simp [makePtrCodec] at hb
      · cases h; exact absurd hb (makeStringCodec_ne_marshaler w _ _)
      · cases h; simp only [makeArrayCodec] at hb; split_ifs at hb
      · cases h; simp only [makeSliceCodec] at hb; split at hb
        · cases hb
        · split_ifs at hb
      · cases h; simp only [makeMapCodec] at hb; split at hb <;> cases hb
      · split_ifs at h with ht hm
        · cases h; cases hb
        · exact ⟨by simpa [XDRTag.empty] using ht, by simpa [TypeInfo.implementsMarshaler] using hm,
            .inl ⟨_, ‹_›⟩⟩
        · exact absurd hb (makeStructCodec_ne_marshaler U h)
      · split_ifs at h with ht hm
        · cases h; cases hb
        · exact ⟨by simpa [XDRTag.empty] using ht, by simpa [TypeInfo.implementsMarshaler] using hm,
            .inr ⟨_, ‹_›, ‹_›⟩⟩
        · split at h <;> cases h
          · rename_i hc; cases hb; exact absurd hc (primitiveCodec_ne_marshaler _)
          · cases hb
  · rintro ⟨ht, hr, hs⟩
    obtain ⟨t, tag⟩ := k
    dsimp only at ht hr hs
    subst ht
    have hm : (U.info t).implementsMarshaler = true := by simp [TypeInfo.implementsMarshaler, hr]
    refine ⟨⟨.marshalerCodec, []⟩, ?_, rfl⟩
    simp only [buildCodec, XDRTag.kind_nil, XDRTagKind.noop_ne.1, if_false]
    rcases hs with ⟨fs, hs⟩ | ⟨kd, hs, hk⟩
    · simp [hs, XDRTag.empty_nil, hm]
    · split <;> simp_all [XDRTag.empty_nil]

/-- A program with `type T struct { A int32 }` whose `MarshalXDR`/`UnmarshalXDR` have pointer
receivers and write `A` as a hyper: `0` is `T`, `1` is `int32`, `2` is `*T`. -/
def pointerMarshalerProgram : Universe where
  info
    | 0 => ⟨.struct [⟨"A", 1, true, []⟩], "T", false, .pointer⟩
    | 1 => ⟨.scalar .int32, "int32", true, .none⟩
    | 2 => ⟨.ptr 0, "", false, .none⟩
    | _ => TypeInfo.invalid
  zero
    | 0 => .struct [.int 0]
    | 1 => .int 0
    | 2 => .ptr none
    | _ => .ref true
  zero_eq t := by rcases t with _ | _ | _ | t <;> rfl
  marshalXDR _ v := .ok (encodeHyper (v.fields.getD 0 default).toInt)
  unmarshalXDR _ _ inp := (decodeHyper inp).map fun (a, inp) => (.struct [.int a], inp)

/-- `T{A: 5}`: `(&v).MarshalXDR` writes `A` as a hyper, but `Encode(v)` and `Encode(&v)` both
write the struct's encoding; decoding the hyper into a zero `T` reads one word, which
`UnmarshalXDR` would not. -/
theorem pointer_marshaler_ignored (w : WordSize) (reflectOnly : Bool) :
    pointerMarshalerProgram.marshalXDR 0 (.struct [.int 5]) = .ok [0, 0, 0, 0, 0, 0, 0, 5] ∧
    encode ⟨pointerMarshalerProgram, w, reflectOnly⟩ 2 0 (.struct [.int 5]) = .ok [0, 0, 0, 5] ∧
    encode ⟨pointerMarshalerProgram, w, reflectOnly⟩ 3 2 (.ptr (some (.struct [.int 5]))) =
      .ok [0, 0, 0, 5] ∧
    pointerMarshalerProgram.unmarshalXDR 0 (.struct [.int 0]) ⟨[0, 0, 0, 0, 0, 0, 0, 5], true⟩ =
      .ok (.struct [.int 5], ⟨[], true⟩) ∧
    decode ⟨pointerMarshalerProgram, w, reflectOnly⟩ 2 0 (.struct [.int 0])
        ⟨[0, 0, 0, 0, 0, 0, 0, 5], true⟩ =
      .ok (.struct [.int 0], ⟨[0, 0, 0, 5], true⟩) := by
  cases w <;> cases reflectOnly <;> exact ⟨rfl, rfl, rfl, rfl, rfl⟩

end OncXdr
