import OncXdr.Codec.RoundTrip

/-!
# OncXdr.Codec.InPlace — what a decode leaves of the destination

`structCodec` and `unionCodec` decode in place: a struct's codec sets only the fields it has a
record for, so a field `makeStructCodec` left out (tagged `-`) keeps the destination's value
(`decodeWith_struct_keeps_unlisted`); a union's codec sets its switch and the arm the decoded
switch selects, and no other field (`decodeWith_union_keeps_unselected`). An array's codec
decodes each element in place. So down a whole codec tree, every struct and union reached
through arrays, structs and unions keeps what the wire does not carry (`Kept`,
`decode_keeps_destination`).

A pointer is not decoded in place. `ptrCodec.Decode` and `decodeUnsafe` both allocate
`reflect.New(elemt)` and decode into the new zero value, so a struct reached through a pointer
loses what its skipped fields held (`decode_through_pointer_resets_skipped`). A slice and a map
are made anew too, and `Kept` says nothing below them or below an optional layer.
-/

namespace OncXdr

variable (e : Env)

/-! ## Two programs -/

/-- A program with `type T struct { A int32; S int32 }`, `S` tagged `xdr:"-"`: `0` is `T`, `1`
is `int32`, `2` is `*T`. -/
def skipFieldProgram : Universe where
  info
    | 0 => ⟨.struct [⟨"A", 1, true, []⟩, ⟨"S", 1, true, "-".toList⟩], "T", false, .none⟩
    | 1 => ⟨.scalar .int32, "int32", true, .none⟩
    | 2 => ⟨.ptr 0, "", false, .none⟩
    | _ => TypeInfo.invalid
  zero
    | 0 => .struct [.int 0, .int 0]
    | 1 => .int 0
    | 2 => .ptr none
    | _ => .ref true
  zero_eq t := by rcases t with _ | _ | _ | t <;> rfl
  marshalXDR _ _ := .ok []
  unmarshalXDR _ v inp := .ok (v, inp)

/-- A program with `type U struct { S int32; A int32; B int32 }`, tagged `xdr:"union:switch"`,
`xdr:"union:0"` and `xdr:"union:1"`: `0` is `U`, `1` is `int32`. -/
def unionProgram : Universe where
  info
    | 0 => ⟨.struct [⟨"S", 1, true, "union:switch".toList⟩, ⟨"A", 1, true, "union:0".toList⟩,
        ⟨"B", 1, true, "union:1".toList⟩], "U", false, .none⟩
    | 1 => ⟨.scalar .int32, "int32", true, .none⟩
    | _ => TypeInfo.invalid
  zero
    | 0 => .struct [.int 0, .int 0, .int 0]
    | 1 => .int 0
    | _ => .ref true
  zero_eq t := by rcases t with _ | _ | t <;> rfl
  marshalXDR _ _ := .ok []
  unmarshalXDR _ v inp := .ok (v, inp)

/-! ## One codec call -/

section Step

variable {e} {rec : Key → Path → Value → Input → Except Fail (Value × Input)} {k : Key}
  {name : String} {p : Path} {v v' : Value} {inp out : Input}

/-- A struct's `Decode` that succeeds decoded its records in turn into the destination's fields. -/
theorem decodeWith_struct_eq_ok {fields : List FieldRec}
    (h : decodeWith e rec k (.structCodec name fields) p v inp = .ok (v', out)) :
    ∃ fs, decodeFields (fun f x inp => (rec f.key ((e.structPath p).field
        (e.exported k.type f.index)) x inp).mapError (·.withField name f.name none))
        fields v.fields inp = .ok (fs, out) ∧ v' = .struct fs := by
  simp only [decodeWith] at h
  split_ifs at h
  obtain ⟨⟨fs, _⟩, hd, h⟩ := map_eq_ok.mp h
  cases h
  exact ⟨fs, hd, rfl⟩

/-- A union's `Decode` that succeeds decoded its switch, then into the arm the switch value
selects, and set those two fields and no other. -/
theorem decodeWith_union_eq_ok {sw : FieldRec} {bodies : List FieldRec} {cases : List (Nat × Nat)}
    {dflt : Option Nat} {kind : SwitchKind}
    (h : decodeWith e rec k (.unionCodec name sw bodies cases dflt kind) p v inp = .ok (v', out)) :
    ∃ swv mid, rec sw.key ((e.structPath p).field (e.exported k.type sw.index))
        (v.fields.getD sw.index default) inp = .ok (swv, mid) ∧
      ∃ f ∈ bodies, armIndex cases dflt (switchValue kind swv) = some f.index ∧
        ∃ x, rec f.key ((e.structPath p).field (e.exported k.type f.index))
          ((v.fields.set sw.index swv).getD f.index default) mid = .ok (x, out) ∧
          v' = .struct ((v.fields.set sw.index swv).set f.index x) := by
  simp only [decodeWith] at h
  split_ifs at h
  split at h
  · cases h
  rename_i swv mid hsw
  split at h
  · cases h
  rename_i i hi
  split at h
  · cases h
  rename_i f hf
  split at h
  · cases h
  rename_i x _ hx
  cases h
  have hfi : f.index = i := by simpa using List.find?_some hf
  exact ⟨swv, mid, hsw, f, List.mem_of_find?_eq_some hf, hfi ▸ hi, x, hx, rfl⟩

end Step

/-- A struct codec writes only the fields it has records for. -/
theorem decodeWith_struct_keeps_unlisted {rec : Key → Path → Value → Input → Except Fail (Value × Input)}
    {k : Key} {name : String} {fields : List FieldRec} {p : Path} {v v' : Value} {inp out : Input}
    (h : decodeWith e rec k (.structCodec name fields) p v inp = .ok (v', out)) {i : Nat}
    (hi : i ∉ fields.map FieldRec.index) :
    v'.fields.getD i default = v.fields.getD i default := by
  obtain ⟨fs, hd, rfl⟩ := decodeWith_struct_eq_ok h
  exact decodeFields_getD _ _ _ _ _ i hi hd

/-- `T{A: 0, S: 7}` decoded from `00 00 00 01` by `T`'s codec, which has no record for `S`. -/
theorem skipped_field_kept :
    decodeWith ⟨skipFieldProgram, .w64, false⟩ (decodeAt ⟨skipFieldProgram, .w64, false⟩ 2) ⟨0, []⟩
        (.structCodec "T" [⟨0, "A", ⟨1, []⟩⟩]) (.reflect true false) (.struct [.int 0, .int 7])
        ⟨[0, 0, 0, 1], true⟩ = .ok (.struct [.int 1, .int 7], ⟨[], true⟩) ∧
    1 ∉ [(⟨0, "A", ⟨1, []⟩⟩ : FieldRec)].map FieldRec.index ∧
    (Value.struct [.int 1, .int 7]).fields.getD 1 default =
      (Value.struct [.int 0, .int 7]).fields.getD 1 default :=
  have h : decodeWith ⟨skipFieldProgram, .w64, false⟩ (decodeAt ⟨skipFieldProgram, .w64, false⟩ 2)
      ⟨0, []⟩ (.structCodec "T" [⟨0, "A", ⟨1, []⟩⟩]) (.reflect true false) (.struct [.int 0, .int 7])
      ⟨[0, 0, 0, 1], true⟩ = .ok (.struct [.int 1, .int 7], ⟨[], true⟩) := rfl
  ⟨h, by decide, decodeWith_struct_keeps_unlisted _ h (by decide)⟩

/-- A union codec writes its switch and the arm that the decoded switch value selects, and
leaves every other field as the destination held it. -/
theorem decodeWith_union_keeps_unselected
    {rec : Key → Path → Value → Input → Except Fail (Value × Input)} {k : Key} {name : String}
    {sw : FieldRec} {bodies : List FieldRec} {cases : List (Nat × Nat)} {dflt : Option Nat}
    {kind : SwitchKind} {p : Path} {v v' : Value} {inp out : Input}
    (h : decodeWith e rec k (.unionCodec name sw bodies cases dflt kind) p v inp = .ok (v', out)) :
    ∃ swv mid, rec sw.key ((e.structPath p).field (e.exported k.type sw.index))
        (v.fields.getD sw.index default) inp = .ok (swv, mid) ∧
      ∃ f ∈ bodies, armIndex cases dflt (switchValue kind swv) = some f.index ∧
        ∀ j, j ≠ sw.index → j ≠ f.index → v'.fields.getD j default = v.fields.getD j default := by
  obtain ⟨swv, mid, hsw, f, hf, hi, x, -, rfl⟩ := decodeWith_union_eq_ok h
  refine ⟨swv, mid, hsw, f, hf, hi, fun j hs hb => ?_⟩
  rw [Value.fields, getD_set_ne (Ne.symm hb), getD_set_ne (Ne.symm hs)]

/-- `U{S: 0, A: 5, B: 9}` decoded from `00 00 00 00 00 00 00 03`: the switch `0` selects `A`, and
`B` keeps `9`. -/
theorem union_unselected_arm_kept :
    Env.codec ⟨unionProgram, .w64, false⟩ ⟨0, []⟩ =
      .ok (.unionCodec "U" ⟨0, "S", ⟨1, []⟩⟩ [⟨1, "A", ⟨1, []⟩⟩, ⟨2, "B", ⟨1, []⟩⟩] [(0, 1), (1, 2)]
        none .switchKindInt) ∧
    decodeWith ⟨unionProgram, .w64, false⟩ (decodeAt ⟨unionProgram, .w64, false⟩ 1) ⟨0, []⟩
        (.unionCodec "U" ⟨0, "S", ⟨1, []⟩⟩ [⟨1, "A", ⟨1, []⟩⟩, ⟨2, "B", ⟨1, []⟩⟩] [(0, 1), (1, 2)]
          none .switchKindInt) (.reflect true false) (.struct [.int 0, .int 5, .int 9])
        ⟨[0, 0, 0, 0, 0, 0, 0, 3], true⟩ = .ok (.struct [.int 0, .int 3, .int 9], ⟨[], true⟩) ∧
    ∃ swv mid, decodeAt ⟨unionProgram, .w64, false⟩ 1 ⟨1, []⟩
        ((Env.structPath ⟨unionProgram, .w64, false⟩ (.reflect true false)).field
          (Env.exported ⟨unionProgram, .w64, false⟩ 0 0))
        ((Value.struct [.int 0, .int 5, .int 9]).fields.getD 0 default)
        ⟨[0, 0, 0, 0, 0, 0, 0, 3], true⟩ = .ok (swv, mid) ∧
      ∃ f ∈ [(⟨1, "A", ⟨1, []⟩⟩ : FieldRec), ⟨2, "B", ⟨1, []⟩⟩],
        armIndex [(0, 1), (1, 2)] none (switchValue .switchKindInt swv) = some f.index ∧
        ∀ j, j ≠ 0 → j ≠ f.index → (Value.struct [.int 0, .int 3, .int 9]).fields.getD j default =
          (Value.struct [.int 0, .int 5, .int 9]).fields.getD j default :=
  have h : decodeWith ⟨unionProgram, .w64, false⟩ (decodeAt ⟨unionProgram, .w64, false⟩ 1) ⟨0, []⟩
      (.unionCodec "U" ⟨0, "S", ⟨1, []⟩⟩ [⟨1, "A", ⟨1, []⟩⟩, ⟨2, "B", ⟨1, []⟩⟩] [(0, 1), (1, 2)]
        none .switchKindInt) (.reflect true false) (.struct [.int 0, .int 5, .int 9])
      ⟨[0, 0, 0, 0, 0, 0, 0, 3], true⟩ = .ok (.struct [.int 0, .int 3, .int 9], ⟨[], true⟩) := rfl
  ⟨rfl, h, decodeWith_union_keeps_unselected _ h⟩

/-! ## Every codec tree -/

/-- Decoding the records `rs` in turn into the fields `fs` gave `fs'`: each record's field set to
a value `rec` relates to what the field held, and nothing else changed. -/
def KeptFields (rec : Key → Value → Value → Prop) :
    List FieldRec → List Value → List Value → Prop
  | [], fs, fs' => fs' = fs
  | r :: rs, fs, fs' =>
    ∃ x, rec r.key (fs.getD r.index default) x ∧ KeptFields rec rs (fs.set r.index x) fs'

/-- What a decode by the codec `c` keeps of the destination `d` in the value `d'` it gives, `rec`
saying it for the codecs below: an array's elements are each kept by their codec; a struct's
fields are decoded in place, record by record, and a field with no record keeps its value; a
union's switch is decoded in place, then the arm the decoded switch selects, and every other
field keeps its value. Nothing is said below a pointer, a slice or a map, which are decoded into
new values, or an optional layer, nor of a codec with no fields. -/
def keptWith (rec : Key → Value → Value → Prop) : Codec → Value → Value → Prop
  | .arrayCodec ek _, d, d' => ∃ xs, d' = .array xs ∧ List.Forall₂ (rec ek) d.elems xs
  | .structCodec _ fields, d, d' => ∃ fs, d' = .struct fs ∧ KeptFields rec fields d.fields fs
  | .unionCodec _ sw bodies cases dflt kind, d, d' =>
    ∃ swv, rec sw.key (d.fields.getD sw.index default) swv ∧
      ∃ f ∈ bodies, armIndex cases dflt (switchValue kind swv) = some f.index ∧
        ∃ x, rec f.key ((d.fields.set sw.index swv).getD f.index default) x ∧
          d' = .struct ((d.fields.set sw.index swv).set f.index x)
  | _, _, _ => True

/-- `keptWith` down the codec tree of `k`, within `n` nested codec calls. -/
def Kept : Nat → Key → Value → Value → Prop
  | 0, _, _, _ => True
  | n + 1, k, d, d' =>
    match e.codec k with
    | .error _ => True
    | .ok c => keptWith (Kept n) c d d'

section Step

variable {e} {rec : Key → Path → Value → Input → Except Fail (Value × Input)}
  {R : Key → Value → Value → Prop}
  (ih : ∀ k p d inp d' out, rec k p d inp = .ok (d', out) → R k d d')
include ih

theorem decodeEach_kept {ek : Key} {p : Path} :
    ∀ {ds : List Value} {inp : Input} {ys : List Value} {out : Input},
      decodeEach (rec ek p) ds inp = .ok (ys, out) → List.Forall₂ (R ek) ds ys
  | [], _, _, _, h => by cases h; exact .nil
  | _ :: _, _, _, _, h => by
    simp only [decodeEach, bind_eq_ok, pure_eq_ok] at h
    obtain ⟨⟨y, _⟩, hy, ⟨ys, _⟩, hys, h⟩ := h
    cases h
    exact .cons (ih _ _ _ _ _ _ hy) (decodeEach_kept hys)

theorem decodeFields_kept {P : FieldRec → Path} {E : FieldRec → Fail → Fail} :
    ∀ {rs : List FieldRec} {fs : List Value} {inp : Input} {fs' : List Value} {out : Input},
      decodeFields (fun f x inp => (rec f.key (P f) x inp).mapError (E f)) rs fs inp =
        .ok (fs', out) → KeptFields R rs fs fs'
  | [], _, _, _, _, h => by cases h; rfl
  | _ :: _, _, _, _, _, h => by
    simp only [decodeFields, bind_eq_ok, mapError_eq_ok] at h
    obtain ⟨⟨x, _⟩, hx, h⟩ := h
    exact ⟨x, ih _ _ _ _ _ _ hx, decodeFields_kept h⟩

/-- One codec call keeps of its destination what `keptWith` says, when the calls below it keep
what `R` says. -/
theorem decodeWith_kept {k : Key} {c : Codec} {p : Path} {d d' : Value} {inp out : Input}
    (h : decodeWith e rec k c p d inp = .ok (d', out)) : keptWith R c d d' := by
  cases c with
  | arrayCodec ek _ =>
    obtain ⟨⟨xs, _⟩, hxs, h⟩ := map_eq_ok.mp h
    cases h
    exact ⟨xs, rfl, decodeEach_kept ih hxs⟩
  | structCodec name fields =>
    obtain ⟨fs, hd, rfl⟩ := decodeWith_struct_eq_ok h
    exact ⟨fs, rfl, decodeFields_kept ih hd⟩
  | unionCodec name sw bodies cases dflt kind =>
    obtain ⟨swv, mid, hsw, f, hf, hi, x, hx, rfl⟩ := decodeWith_union_eq_ok h
    exact ⟨swv, ih _ _ _ _ _ _ hsw, f, hf, hi, x, ih _ _ _ _ _ _ hx, rfl⟩
  | _ => trivial

end Step

/-- Every decode that succeeds, down its whole codec tree, keeps of its destination what `Kept`
says. -/
theorem decodeAt_kept : ∀ (n : Nat) (k : Key) (p : Path) (d : Value) (inp : Input) (d' : Value)
    (out : Input), decodeAt e n k p d inp = .ok (d', out) → Kept e n k d d'
  | 0, _, _, _, _, _, _, _ => trivial
  | n + 1, k, p, d, inp, d', out, h => by
    simp only [Kept]
    cases hc : e.codec k with
    | error => trivial
    | ok c =>
      rw [decodeAt_of_codec e hc] at h
      exact decodeWith_kept (decodeAt_kept n) h

/-- `Decode` into any destination `d`, wherever it succeeds, writes only what the wire carries:
through every array, struct and union reached without a pointer, slice, map or optional layer, a
struct's fields with no record (those tagged `-`) keep their values from `d`, and so do a union's
fields other than its switch and the arm the decoded switch selects. -/
theorem decode_keeps_destination {fuel : Nat} {t : TypeId} {d d' : Value} {inp out : Input}
    (h : decode e fuel t d inp = .ok (d', out)) : Kept e fuel (Key.base t) d d' := by
  unfold decode at h
  split at h
  · cases h
  · exact decodeAt_kept e _ _ _ _ _ _ _ h

/-- `T{A: 0, S: 7}` decoded from `00 00 00 01`: `T`'s codec has a record for `A` only. -/
theorem skipped_field_decode_kept :
    decode ⟨skipFieldProgram, .w64, false⟩ 3 0 (.struct [.int 0, .int 7]) ⟨[0, 0, 0, 1], true⟩ =
      .ok (.struct [.int 1, .int 7], ⟨[], true⟩) ∧
    Kept ⟨skipFieldProgram, .w64, false⟩ 3 ⟨0, []⟩ (.struct [.int 0, .int 7])
      (.struct [.int 1, .int 7]) :=
  have h : decode ⟨skipFieldProgram, .w64, false⟩ 3 0 (.struct [.int 0, .int 7])
      ⟨[0, 0, 0, 1], true⟩ = .ok (.struct [.int 1, .int 7], ⟨[], true⟩) := rfl
  ⟨h, decode_keeps_destination _ h⟩

/-! ## Through a pointer -/

/-- `T`'s codec has a record for `A` only, and decoding `00 00 00 01` into `T{A: 0, S: 7}` keeps
`S = 7`; decoding the same bytes into `&T{A: 0, S: 7}` of type `*T` allocates a new `T`, and
`S` is `0` after it, by `decodeUnsafe` in the default build and by `ptrCodec.Decode` with
`nounsafe`. -/
theorem decode_through_pointer_resets_skipped :
    Env.codec ⟨skipFieldProgram, .w64, false⟩ ⟨0, []⟩ =
      .ok (.structCodec "T" [⟨0, "A", ⟨1, []⟩⟩]) ∧
    decode ⟨skipFieldProgram, .w64, false⟩ 3 0 (.struct [.int 0, .int 7]) ⟨[0, 0, 0, 1], true⟩ =
      .ok (.struct [.int 1, .int 7], ⟨[], true⟩) ∧
    decode ⟨skipFieldProgram, .w64, false⟩ 4 2 (.ptr (some (.struct [.int 0, .int 7])))
        ⟨[0, 0, 0, 1], true⟩ =
      .ok (.ptr (some (.struct [.int 1, .int 0])), ⟨[], true⟩) ∧
    decode ⟨skipFieldProgram, .w64, true⟩ 4 2 (.ptr (some (.struct [.int 0, .int 7])))
        ⟨[0, 0, 0, 1], true⟩ =
      .ok (.ptr (some (.struct [.int 1, .int 0])), ⟨[], true⟩) :=
  ⟨rfl, rfl, rfl, rfl⟩

end OncXdr
