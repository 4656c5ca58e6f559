import OncXdr.Codec.Run

/-!
# OncXdr.Codec.TagAgreement — what `ParseTag` accepts and what the builders make of it

`ParseTag` decides which modifiers a struct field's tag may carry; the builders then turn the
parsed tag into codecs. The two disagree in three places:

* the union switch: `validForUnionSwitch` admits `bool` and every integer kind up to 64 bits,
  `makeStructCodec` only `bool`, `int32` and `uint32` (`switch_kind_gap`), and panics on the
  others (`makeStructCodec_switch_panics`, `buildCodec_switch_panics`), so `Encode` and `Decode`
  of such a union panic;
* `len:N` is accepted on a slice layer, where `makeSliceCodec` has no fixed length and builds
  an `InvalidTagForTypeError` codec (`buildCodec_slice_len`);
* `maxlen:N` is refused on a map layer (`parseLayer_maxlen_map`), although `makeMapCodec`
  reads it.
-/

namespace OncXdr

open Text

variable (U : Universe) (w : WordSize)

/-! ## The union switch -/

/-- The kinds `ParseTag` accepts for a union switch and `makeStructCodec` refuses. -/
theorem switch_kind_gap (k : Kind) :
    (validForUnionSwitch k = true ∧ switchKindOf k = none) ↔
      k = .int ∨ k = .int8 ∨ k = .int16 ∨ k = .int64 ∨ k = .uint ∨ k = .uint8 ∨ k = .uint16 := by
  cases k <;> simp [validForUnionSwitch, switchKindOf]

/-- `union:switch` on a struct's first field is accepted for every kind `validForUnionSwitch`
allows. -/
theorem parseTag_union_switch {t : TypeId} (hv : validForUnionSwitch (U.kind t) = true) :
    parseTag U t "union:switch".toList .maybeInUnion = .ok ([XDRTagKind.UnionSwitch], .inUnion) := by
  have h₁ : trimSpace "union:switch".toList = "union:switch".toList := by decide
  have h₂ : split '/' "union:switch".toList = ["union:switch".toList] := by decide
  have h₃ : hasPrefix "union:switch".toList "union:".toList = true := by decide
  simp only [parseTag, h₁, h₂, h₃, List.headD_cons, List.tail_cons, parseUnionHead, hv]
  simp [parseLayers]
  decide

/-- A struct whose first field is a `union:switch` of a kind in the gap: `makeStructCodec`
panics. -/
theorem makeStructCodec_switch_panics {t : TypeId} {f : Field} {rest : List Field}
    (hf : f.tag = "union:switch".toList) (hv : validForUnionSwitch (U.kind f.type) = true)
    (hn : switchKindOf (U.kind f.type) = none) :
    makeStructCodec U t (f :: rest) =
      .error "Switch field of union not valid (must be int32, uint32 or bool)" := by
  have hs : XDRTagKind.UnionSwitch ≠ XDRTagKind.Skip := by decide
  have hu : XDRTag.kind [XDRTagKind.UnionSwitch] = XDRTagKind.UnionSwitch := rfl
  simp only [makeStructCodec, List.enum, List.enumFrom_cons, classifyFields, hf,
    parseTag_union_switch U hv, hu, hs, if_false, reduceCtorEq, ne_eq, not_true, hn]

/-- The codec of such a struct, with no `MarshalXDR`, cannot be built: `buildCodec` panics. -/
theorem buildCodec_switch_panics {t : TypeId} {f : Field} {rest : List Field}
    (hs : (U.info t).shape = .struct (f :: rest)) (hm : (U.info t).implementsMarshaler = false)
    (hf : f.tag = "union:switch".toList) (hv : validForUnionSwitch (U.kind f.type) = true)
    (hn : switchKindOf (U.kind f.type) = none) :
    buildCodec U w ⟨t, []⟩ = .error "Switch field of union not valid (must be int32, uint32 or bool)" := by
  simp only [buildCodec, hs, XDRTag.kind_nil, XDRTagKind.noop_ne.1, if_false, XDRTag.empty_nil,
    Bool.not_true, Bool.false_eq_true, hm, makeStructCodec_switch_panics U hf hv hn]

/-- A program with `type U struct { S int8; A int32 }`, `S` tagged `xdr:"union:switch"` and `A`
tagged `xdr:"union:0"`: `0` is `U`, `1` is `int8`, `2` is `int32`. -/
def int8SwitchProgram : Universe where
  info
    | 0 => ⟨.struct [⟨"S", 1, true, "union:switch".toList⟩, ⟨"A", 2, true, "union:0".toList⟩],
        "U", false, .none⟩
    | 1 => ⟨.scalar .int8, "int8", true, .none⟩
    | 2 => ⟨.scalar .int32, "int32", true, .none⟩
    | _ => TypeInfo.invalid
  zero
    | 0 => .struct [.int 0, .int 0]
    | 1 => .int 0
    | 2 => .int 0
    | _ => .ref true
  zero_eq t := by rcases t with _ | _ | _ | t <;> rfl
  marshalXDR _ _ := .ok []
  unmarshalXDR _ v inp := .ok (v, inp)

/-- Both tags of `U` parse, and the arm of the switch value `0` is `A`; yet `Encode` of
`U{S: 0, A: 5}` panics in either build. -/
theorem int8_switch_encode_panics (w : WordSize) (reflectOnly : Bool) :
    parseTag int8SwitchProgram 1 "union:switch".toList .maybeInUnion =
      .ok ([XDRTagKind.UnionSwitch], .inUnion) ∧
    parseTag int8SwitchProgram 2 "union:0".toList .inUnion =
      .ok ([XDRTagKind.UnionCases, 0, 0, 0, 1, 0, 0, 0, 0], .inUnion) ∧
    encode ⟨int8SwitchProgram, w, reflectOnly⟩ 2 0 (.struct [.int 0, .int 5]) =
      .error (.panic "Switch field of union not valid (must be int32, uint32 or bool)") :=
  -- `int8` is in the gap, so `U`'s codec panics as it is built
  have hgap := (switch_kind_gap .int8).mpr (.inr (.inl rfl))
  have hb := buildCodec_switch_panics int8SwitchProgram w (t := 0) rfl rfl rfl hgap.1 hgap.2
  ⟨parseTag_union_switch int8SwitchProgram (t := 1) rfl, rfl, by simp [encode, construct, Key.base, hb]⟩

/-! ## `len` on a slice, `maxlen` on a map -/

/-- A slice type's tag whose first modifier is `len:N` gets an `InvalidTagForTypeError` codec. -/
theorem buildCodec_slice_len {t el : TypeId} (hs : (U.info t).shape = .slice el) {tag : XDRTag}
    (hk : XDRTag.kind tag = XDRTagKind.Len) :
    buildCodec U w ⟨t, tag⟩ = .ok ⟨.errorCodec (.invalidTagForType t tag), []⟩ := by
  have h₁ : XDRTagKind.Len ≠ XDRTagKind.Opt := by decide
  have h₂ : XDRTagKind.Len ≠ XDRTagKind.MaxLen := by decide
  have h₃ : XDRTagKind.Len ≠ XDRTagKind.Noop := by decide
  simp [buildCodec, hs, hk, h₁, makeSliceCodec, layerMax, h₂, h₃]

/-- A `maxlen:N` modifier is refused on a map layer. -/
theorem parseLayer_maxlen_map {t : TypeId} (hk : U.kind t = .map) (xt : XDRTag) {p : List Char}
    {len : Nat} (hp : hasPrefix (trimSpace p) "maxlen:".toList = true)
    (hl : parseUint32 ((trimSpace p).drop 7) = some len) :
    parseLayer U t xt p = .error (.maxlenOnType t) := by
  obtain ⟨s, hs⟩ := List.isPrefixOf_iff_prefix.mp hp
  have hc : "maxlen:".toList ++ s = 'm' :: 'a' :: 'x' :: 'l' :: 'e' :: 'n' :: ':' :: s := rfl
  rw [← hs, hc] at hl
  unfold parseLayer
  rw [← hs, hc]
  simp only [hasPrefix, reduceCtorEq, if_false, List.drop_succ_cons, List.drop_zero] at hl ⊢
  simp (disch := decide) [List.isPrefixOf, hk, hl]

/-- `makeMapCodec` honours a `maxlen:N` layer. -/
theorem makeMapCodec_maxlen {t kt el : TypeId} {tag : XDRTag}
    (hk : XDRTag.kind tag = XDRTagKind.MaxLen) :
    makeMapCodec w t kt el tag =
      ⟨.mapCodec ⟨kt, []⟩ ⟨el, XDRTag.next tag⟩ (clampMax w (XDRTag.onlyValue tag))
        (XDRTag.onlyValue tag), [⟨kt, []⟩, ⟨el, XDRTag.next tag⟩]⟩ := by
  simp [makeMapCodec, layerMax, hk]

/-- A program with `type S struct { A []int32 }`, `A` tagged `xdr:"len:4"`, and `map[int32]int32`:
`0` is `S`, `1` is `[]int32`, `2` is `int32`, `3` is the map. -/
def lenProgram : Universe where
  info
    | 0 => ⟨.struct [⟨"A", 1, true, "len:4".toList⟩], "S", false, .none⟩
    | 1 => ⟨.slice 2, "", false, .none⟩
    | 2 => ⟨.scalar .int32, "int32", true, .none⟩
    | 3 => ⟨.map 2 2, "", false, .none⟩
    | _ => TypeInfo.invalid
  zero
    | 0 => .struct [.slice []]
    | 1 => .slice []
    | 2 => .int 0
    | 3 => .map []
    | _ => .ref true
  zero_eq t := by rcases t with _ | _ | _ | _ | t <;> rfl
  marshalXDR _ _ := .ok []
  unmarshalXDR _ v inp := .ok (v, inp)

/-- `len:4` on `[]int32` parses, and the slice's codec is an `InvalidTagForTypeError`, so every
`Encode` of `S` fails; `maxlen:4` on the map does not parse, though `makeMapCodec` reads it. -/
theorem len_slice_maxlen_map_disagree (w : WordSize) (reflectOnly : Bool) :
    parseTag lenProgram 1 "len:4".toList .maybeInUnion =
      .ok ([XDRTagKind.Len, 0, 0, 0, 4], .notInUnion) ∧
    buildCodec lenProgram w ⟨1, [XDRTagKind.Len, 0, 0, 0, 4]⟩ =
      .ok ⟨.errorCodec (.invalidTagForType 1 [XDRTagKind.Len, 0, 0, 0, 4]), []⟩ ∧
    encode ⟨lenProgram, w, reflectOnly⟩ 3 0 (.struct [.slice [.int 1, .int 2, .int 3, .int 4]]) =
      .error (.err (.field (.invalidTagForType 1 [XDRTagKind.Len, 0, 0, 0, 4]) [⟨"S", "A", none⟩])) ∧
    parseTag lenProgram 3 "maxlen:4".toList .maybeInUnion = .error (.maxlenOnType 3) ∧
    (makeMapCodec w 3 2 2 [XDRTagKind.MaxLen, 0, 0, 0, 4]).codec =
      .mapCodec ⟨2, []⟩ ⟨2, []⟩ 4 4 := by
  have hslice : buildCodec lenProgram w ⟨1, [XDRTagKind.Len, 0, 0, 0, 4]⟩ =
      .ok ⟨.errorCodec (.invalidTagForType 1 [XDRTagKind.Len, 0, 0, 0, 4]), []⟩ :=
    buildCodec_slice_len lenProgram w (show (lenProgram.info 1).shape = .slice 2 from rfl) rfl
  -- the one layer `maxlen:4` of the map's tag is refused
  have hmap : parseLayer lenProgram 3 [] ['m', 'a', 'x', 'l', 'e', 'n', ':', '4'] =
      .error (.maxlenOnType 3) :=
    parseLayer_maxlen_map lenProgram (show lenProgram.kind 3 = .map from rfl) [] (by decide) rfl
  refine ⟨rfl, hslice, by cases w <;> cases reflectOnly <;> rfl, ?_, ?_⟩
  · have h₀ : "maxlen:4".toList ≠ "-".toList := by decide
    have h₁ : trimSpace "maxlen:4".toList = "maxlen:4".toList := by decide
    have h₂ : split '/' "maxlen:4".toList = ["maxlen:4".toList] := by decide
    have h₃ : hasPrefix "maxlen:4".toList "union:".toList = false := by decide
    simp only [parseTag, h₀, h₁, h₂, h₃, List.headD_cons, reduceCtorEq, if_false, Bool.false_eq_true,
      List.tail_cons, parseLayers, hmap]
  · rw [makeMapCodec_maxlen w (show XDRTag.kind [XDRTagKind.MaxLen, 0, 0, 0, 4] = .MaxLen from rfl)]
    cases w <;> rfl

end OncXdr
