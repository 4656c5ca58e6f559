import OncXdr.Codec.DecodeUnsafe
import OncXdr.Tags.Layers
import OncXdr.Registry.Termination

/-!
# OncXdr.Codec.OptLayers — every optional wraps a pointer, so the builds decode alike

`ParseTag` lets `opt` stand only on a pointer or an interface (`canBeOpt`), and the builders
descend the type and the tag together: a pointer, array or slice codec looks its element up
under `tag.Next()`, a map its value (and its key under no tag), `makeOptCodec` the same type with
the `Opt` entry replaced by `Noop`, a struct each field under the tag `ParseTag` gave it, a union
its switch and arms under the entries after their `union:` entry. So every key a lookup reaches
has a tag whose entries sit on the layers of its type (`KeyFits`), and every optional layer of
every codec tree wraps the codec of a pointer, or an error codec for an interface
(`optsFresh_of_keyFits`). With `Codec.DecodeUnsafe`, the default build's `Decode` then gives
what the `nounsafe` build's gives, on every type of every program whose `UnmarshalXDR` methods
read from the stream, and on every stream in which no four bytes form a `float32` signalling
NaN, which `SetFloat(float64(f))` would quiet and memory would not
(`decode_nounsafe_default`).

Two kinds of program are left out. A struct tag of `2^32` characters or more can hold a `union:`
list whose count `Append` wraps, and the tag no longer reads as entries. An interface type with
`MarshalXDR`/`UnmarshalXDR` methods would give an optional a marshaler codec, which decodes into
its destination; the value model keeps only `IsNil` of an interface, so that case is outside it.
-/

namespace OncXdr

open XDRTag

/-! ## Keys whose tag sits on their type -/

section Fits

variable (U : Universe)

/-- The tag of `k` is entries that sit on the layers of its type. -/
def KeyFits (k : Key) : Prop := ∃ es, k.tag = ofEntries es ∧ OptsFit U k.type es

variable {U}

theorem kind_ofEntries_cons (x : TagEntry) (es : List TagEntry) :
    XDRTag.kind (ofEntries (x :: es)) = x.kind := by
  rw [ofEntries_eq, List.flatMap_cons, kind_bytes_append]

theorem next_ofEntries_cons (x : TagEntry) (es : List TagEntry) :
    XDRTag.next (ofEntries (x :: es)) = ofEntries es := by
  rw [ofEntries_eq, ofEntries_eq, List.flatMap_cons, next_bytes_append]

theorem keyFits_base (t : TypeId) : KeyFits U ⟨t, []⟩ := ⟨[], rfl, trivial⟩

/-- A pointer, array, slice or map looks its element up under `tag.Next()`. -/
theorem KeyFits.next {t : TypeId} {tag : XDRTag} (hk : KeyFits U ⟨t, tag⟩) :
    KeyFits U ⟨U.elem t, XDRTag.next tag⟩ := by
  obtain ⟨es, rfl, h⟩ := hk
  cases es with
  | nil => exact keyFits_base _
  | cons x es => exact ⟨es, next_ofEntries_cons x es, h.2⟩

/-- `makeOptCodec` looks up the same type, which `canBeOpt` admits, under the tag with its `Opt`
replaced by `Noop`, trimmed: a tag that fits, and is not `Opt` again. -/
theorem KeyFits.opt {t : TypeId} {tag : XDRTag} (hk : KeyFits U ⟨t, tag⟩)
    (hopt : XDRTag.kind tag = XDRTagKind.Opt) :
    canBeOpt (U.kind t) = true ∧
      KeyFits U ⟨t, trimmed (prepend (XDRTag.next tag) XDRTagKind.Noop [])⟩ ∧
      XDRTag.kind (trimmed (prepend (XDRTag.next tag) XDRTagKind.Noop [])) ≠ XDRTagKind.Opt := by
  obtain ⟨es, rfl, h⟩ := hk
  cases es with
  | nil => exact absurd hopt (by decide)
  | cons x es =>
    rw [kind_ofEntries_cons] at hopt
    have hinner : trimmed (prepend (XDRTag.next (ofEntries (x :: es))) XDRTagKind.Noop []) =
        ofEntries (trimEntries (TagEntry.noop :: es)) := by
      rw [next_ofEntries_cons, show XDRTagKind.Noop = TagEntry.noop.kind from rfl,
        show ([] : List Nat) = TagEntry.noop.values from rfl, prepend_ofEntries, trimmed_ofEntries]
    refine ⟨h.1 hopt, ⟨_, hinner, (optsFit_cons (by decide) h.2).trimEntries⟩, ?_⟩
    rw [hinner, trimEntries_cons]
    split_ifs
    · decide
    · rw [kind_ofEntries_cons]; decide

/-- A struct field's key: its type under the tag `ParseTag` gave it outside a union. -/
theorem keyFits_field {ty : TypeId} {s : List Char} {m u : IsInUnion} {p : XDRTag}
    (hs : s.length < 2 ^ 32) (h : parseTag U ty s m = .ok (p, u))
    (hm : m = .notInUnion ∨ u = .notInUnion) : KeyFits U ⟨ty, p⟩ := by
  rcases parseTag_layers U hs h with ⟨rfl, -⟩ | ⟨ls, hfit, ⟨-, -, rfl⟩ | ⟨rfl, hm', -⟩⟩
  · exact ⟨[TagEntry.skip], rfl, optsFit_cons (by decide) trivial⟩
  · exact ⟨ls, rfl, hfit⟩
  · exact absurd (hm.resolve_right nofun) hm'

/-- A union's switch and arms: the type under the entries after the `union:` entry. -/
theorem keyFits_arm {ty : TypeId} {s : List Char} {m u : IsInUnion} {p : XDRTag}
    (hs : s.length < 2 ^ 32) (h : parseTag U ty s m = .ok (p, u))
    (hm : m = .inUnion ∨ u = .inUnion) : KeyFits U ⟨ty, XDRTag.next p⟩ := by
  rcases parseTag_layers U hs h with ⟨rfl, -⟩ | ⟨ls, hfit, ⟨rfl, hm', -⟩ | ⟨-, -, x, rfl⟩⟩
  · exact keyFits_base _
  · exact absurd (hm.resolve_right nofun) hm'
  · exact ⟨ls, next_ofEntries_cons x ls, hfit⟩

end Fits

/-! ## The codec an optional wraps -/

section Builders

variable {U : Universe} {w : WordSize} {r : Bool}
  (hm : ∀ t, canBeOpt (U.kind t) = true → (U.info t).implementsMarshaler = true →
    ∃ e, (U.info t).shape = .ptr e)
include hm

/-- On a type `canBeOpt` admits, under a tag that is not `Opt`, the codec makes its value anew: a
pointer's codec, or an error codec for an interface. -/
theorem decodesAnew_of_canBeOpt {k : Key} (hc : canBeOpt (U.kind k.type) = true)
    (hk : XDRTag.kind k.tag ≠ XDRTagKind.Opt) : Env.decodesAnew ⟨U, w, r⟩ k = true := by
  obtain ⟨t, tag⟩ := k
  simp only [Env.decodesAnew, Env.codec, buildCodec, if_neg hk]
  rcases hs : (U.info t).shape with kd | ⟨n, e⟩ | e | ⟨kt, e⟩ | e | fs
  all_goals simp only [Universe.kind, hs, Shape.kind] at hc
  · -- an interface, or a pointer kind with no element: no primitive codec
    have hkd : kd = .interface ∨ kd = .ptr := by simpa [canBeOpt] using hc
    have hnm : (U.info t).implementsMarshaler = false := by
      by_contra hmar
      obtain ⟨e, he⟩ := hm t (by simp [Universe.kind, hs, Shape.kind, hc])
        (Bool.not_eq_false _ ▸ hmar)
      rw [hs] at he
      cases he
    rcases hkd with rfl | rfl <;> split_ifs with _ h₂ <;> first | rfl | exact absurd h₂ (by simp [hnm])
  all_goals first | exact absurd hc (by decide) | rfl

end Builders

/-! ## The codecs a struct builds -/

section Struct

variable {U : Universe} {w : WordSize} {r : Bool} {P : Key → Bool}
  (hP : ∀ l, KeyFits U l → P l = true)
  {fs : List Field} (hfs : ∀ f ∈ fs, f.tag.length < 2 ^ 32) {t : TypeId} {name : String}
include hP hfs

theorem structFields_fresh :
    ∀ (rest : List (Nat × Field)) (fields : List FieldRec) (lookups : List Key),
      (∀ x ∈ rest, x.2 ∈ fs) → (∀ g ∈ fields, KeyFits U g.key) →
      optsFreshWith ⟨U, w, r⟩ P (structFields U t name rest fields lookups).codec = true
  | [], fields, _, _, hf => by
    simp only [structFields, optsFreshWith, List.all_eq_true]
    exact fun g hg => hP _ (hf g hg)
  | (i, f) :: rest, fields, lookups, hr, hf => by
    have hr' : ∀ x ∈ rest, x.2 ∈ fs := fun x hx => hr x (.tail _ hx)
    simp only [structFields]
    split
    · rfl
    rename_i tag u hp
    split_ifs
    · exact structFields_fresh rest fields lookups hr' hf
    · refine structFields_fresh rest _ _ hr' fun g hg => ?_
      rcases List.mem_append.mp hg with hg | hg
      · exact hf g hg
      · rw [List.mem_singleton.mp hg]
        exact keyFits_field (hfs f (hr _ (.head _))) hp (.inl rfl)

theorem unionFields_fresh {sw : FieldRec} (hsw : KeyFits U sw.key) {kind : SwitchKind} :
    ∀ (rest : List (Nat × Field)) (bodies : List FieldRec) (cases : List (Nat × Nat))
      (dflt : Option Nat) (lookups : List Key), (∀ x ∈ rest, x.2 ∈ fs) →
      (∀ g ∈ bodies, KeyFits U g.key) →
      optsFreshWith ⟨U, w, r⟩ P (unionFields U t name sw kind rest bodies cases dflt lookups).codec =
        true
  | [], bodies, _, _, _, _, hf => by
    simp only [unionFields, optsFreshWith, Bool.and_eq_true, List.all_eq_true]
    exact ⟨hP _ hsw, fun g hg => hP _ (hf g hg)⟩
  | (i, f) :: rest, bodies, cases, dflt, lookups, hr, hf => by
    have hr' : ∀ x ∈ rest, x.2 ∈ fs := fun x hx => hr x (.tail _ hx)
    simp only [unionFields]
    split
    · rfl
    rename_i tag u hp
    -- the arm's key fits, whatever its case values turn out to be
    have hf' : ∀ g ∈ bodies ++ [⟨i, f.name, ⟨f.type, XDRTag.next tag⟩⟩], KeyFits U g.key :=
      fun g hg => (List.mem_append.mp hg).elim (hf g) fun hg => by
        rw [List.mem_singleton.mp hg]
        exact keyFits_arm (hfs f (hr _ (.head _))) hp (.inl rfl)
    split_ifs
    · exact unionFields_fresh hsw rest bodies cases dflt lookups hr' hf
    · split
      · rfl
      · exact unionFields_fresh hsw rest _ _ dflt _ hr' hf'
    · rfl
    · exact unionFields_fresh hsw rest _ _ _ _ hr' hf'
    · exact unionFields_fresh hsw rest _ _ _ _ hr' hf'

theorem makeStructCodec_fresh {b : Built} (h : makeStructCodec U t fs = .ok b) :
    optsFreshWith ⟨U, w, r⟩ P b.codec = true := by
  have hmem : ∀ {x : Nat × Field}, x ∈ fs.enum → x.2 ∈ fs := List.snd_mem_of_mem_enumFrom
  simp only [makeStructCodec] at h
  split at h
  · cases h
  · cases h; rfl
  · cases h; rfl
  · rename_i i f tag u rest hc
    obtain ⟨hf, hp, hrest⟩ := classifyFields_some hc
    have hs := hfs f (hmem hf)
    split at h
    · cases h
      exact structFields_fresh hP hfs rest _ _ (fun x hx => hmem (hrest x hx))
        fun g hg => (List.mem_singleton.mp hg) ▸ keyFits_field hs hp (.inr rfl)
    · split_ifs at h
      split at h
      · cases h
      · cases h
        exact unionFields_fresh hP hfs (keyFits_arm hs hp (.inr rfl)) rest _ _ _ _
          (fun x hx => hmem (hrest x hx)) fun _ h => nomatch h
    · cases h

end Struct

/-! ## Every codec tree -/

/-- A primitive codec has no child. -/
theorem optsFreshWith_primitive {e : Env} {P : Key → Bool} {kd : Kind} {c : Codec}
    (h : primitiveCodec kd = some c) : optsFreshWith e P c = true := by
  cases kd <;> simp only [primitiveCodec] at h <;> cases h <;> rfl

section Tree

variable {U : Universe} {w : WordSize} {r : Bool}
  (hm : ∀ t, canBeOpt (U.kind t) = true → (U.info t).implementsMarshaler = true →
    ∃ e, (U.info t).shape = .ptr e)
  (htags : ∀ t fs, (U.info t).shape = .struct fs → ∀ f ∈ fs, f.tag.length < 2 ^ 32)
include hm htags

/-- A build from a key that fits looks up keys that fit, and an optional it makes wraps a codec
that makes its value anew. -/
theorem buildCodec_fresh {P : Key → Bool} (hP : ∀ l, KeyFits U l → P l = true) {k : Key}
    (hk : KeyFits U k) {b : Built} (hb : buildCodec U w k = .ok b) :
    optsFreshWith ⟨U, w, r⟩ P b.codec = true := by
  obtain ⟨t, tag⟩ := k
  simp only [buildCodec] at hb
  by_cases hopt : XDRTag.kind tag = XDRTagKind.Opt
  · rw [if_pos hopt] at hb
    cases hb
    obtain ⟨hc, hin, hnot⟩ := hk.opt hopt
    simp only [makeOptCodec, optsFreshWith, Bool.and_eq_true]
    exact ⟨decodesAnew_of_canBeOpt hm hc hnot, hP _ hin⟩
  rw [if_neg hopt] at hb
  -- the element of a pointer, array, slice or map, under `tag.Next()`
  have helem : ∀ {e : TypeId}, (U.info t).shape.elem? = some e → P ⟨e, XDRTag.next tag⟩ = true :=
    fun he => hP _ (by simpa [Universe.elem, he] using hk.next)
  split at hb
  · rename_i e hs
    cases hb
    exact helem (by rw [hs]; rfl)
  · cases hb
    simp only [makeStringCodec]
    split_ifs <;> (try split) <;> (try split_ifs) <;> rfl
  · rename_i n e hs
    cases hb
    simp only [makeArrayCodec]
    split_ifs
    · rfl
    · rfl
    · exact helem (by rw [hs]; rfl)
  · rename_i e hs
    cases hb
    simp only [makeSliceCodec]
    split
    · rfl
    · split_ifs
      · rfl
      · exact helem (by rw [hs]; rfl)
  · rename_i kt e hs
    cases hb
    simp only [makeMapCodec]
    split
    · rfl
    · simp only [optsFreshWith, Bool.and_eq_true]
      exact ⟨hP _ (keyFits_base kt), helem (by rw [hs]; rfl)⟩
  · rename_i fs hs
    split_ifs at hb
    · cases hb; rfl
    · cases hb; rfl
    · exact makeStructCodec_fresh hP (htags t fs hs) hb
  · split_ifs at hb
    · cases hb; rfl
    · cases hb; rfl
    · split at hb
      · rename_i c hc
        cases hb
        exact optsFreshWith_primitive hc
      · cases hb; rfl

/-- Every optional layer of the tree of a key that fits wraps a codec that makes its value
anew. -/
theorem optsFresh_of_keyFits : ∀ (n : Nat) (k : Key), KeyFits U k → optsFresh ⟨U, w, r⟩ n k = true
  | 0, _, _ => rfl
  | n + 1, k, hk => by
    unfold optsFresh
    split
    · rfl
    rename_i c hc
    obtain ⟨b, hb, rfl⟩ := map_eq_ok.mp hc
    exact buildCodec_fresh hm htags (fun l hl => optsFresh_of_keyFits n l hl) hk hb

end Tree

/-- Whatever the `nounsafe` build's `Decode` gives, the default build's gives too, for every type
of a program whose struct tags are shorter than `2^32` characters, whose marshalers that may be
optional are pointers and whose `UnmarshalXDR` methods read a prefix of their stream, from every
stream in which no four bytes form a `float32` signalling NaN. -/
theorem decode_nounsafe_default {U : Universe} {w : WordSize} {fuel : Nat} {t : TypeId} {x : Value}
    {inp : Input} {res : Value × Input}
    (htags : ∀ t fs, (U.info t).shape = .struct fs → ∀ f ∈ fs, f.tag.length < 2 ^ 32)
    (hm : ∀ t, canBeOpt (U.kind t) = true → (U.info t).implementsMarshaler = true →
      ∃ e, (U.info t).shape = .ptr e)
    (hu : ∀ t v inp v' out, U.unmarshalXDR t v inp = .ok (v', out) → inp.Consumes out)
    (hq : quietWords inp.rest = true)
    (h : decode ⟨U, w, true⟩ fuel t x inp = .ok res) : decode ⟨U, w, false⟩ fuel t x inp = .ok res :=
  decode_nounsafe_default_of_optsFresh hu (optsFresh_of_keyFits hm htags fuel _ (keyFits_base t)) hq h

/-- A program with `type L struct { V int32; Next *L }`, `Next` tagged `xdr:"opt"`: `0` is `L`,
`1` is `int32`, `2` is `*L`. -/
def listProgram : Universe where
  info
    | 0 => ⟨.struct [⟨"V", 1, true, []⟩, ⟨"Next", 2, true, "opt".toList⟩], "L", false, .none⟩
    | 1 => ⟨.scalar .int32, "int32", true, .none⟩
    | 2 => ⟨.ptr 0, "", false, .none⟩
    | _ => TypeInfo.invalid
  zero
    | 0 => .struct [.int 0, .ptr none]
    | 1 => .int 0
    | 2 => .ptr none
    | _ => .ref true
  zero_eq t := by rcases t with _ | _ | _ | t <;> rfl
  marshalXDR _ _ := .ok []
  unmarshalXDR _ v inp := .ok (v, inp)

/-- `L{1, &L{2, nil}}` is decoded alike by both builds. -/
theorem decode_nounsafe_default_list :
    (∀ t fs, (listProgram.info t).shape = .struct fs → ∀ f ∈ fs, f.tag.length < 2 ^ 32) ∧
      (∀ t, canBeOpt (listProgram.kind t) = true → (listProgram.info t).implementsMarshaler = true →
        ∃ e, (listProgram.info t).shape = .ptr e) ∧
      (∀ t v inp v' out, listProgram.unmarshalXDR t v inp = .ok (v', out) → inp.Consumes out) ∧
      quietWords [0, 0, 0, 1, 0, 0, 0, 1, 0, 0, 0, 2, 0, 0, 0, 0] = true ∧
      decode ⟨listProgram, .w64, true⟩ 8 0 (.struct [.int 0, .ptr none])
          ⟨[0, 0, 0, 1, 0, 0, 0, 1, 0, 0, 0, 2, 0, 0, 0, 0], true⟩ =
        .ok (.struct [.int 1, .ptr (some (.struct [.int 2, .ptr none]))], ⟨[], true⟩) ∧
      decode ⟨listProgram, .w64, false⟩ 8 0 (.struct [.int 0, .ptr none])
          ⟨[0, 0, 0, 1, 0, 0, 0, 1, 0, 0, 0, 2, 0, 0, 0, 0], true⟩ =
        .ok (.struct [.int 1, .ptr (some (.struct [.int 2, .ptr none]))], ⟨[], true⟩) :=
  have htags : ∀ t fs, (listProgram.info t).shape = .struct fs → ∀ f ∈ fs,
      f.tag.length < 2 ^ 32 := by
    intro t fs hs f hf
    rcases t with _ | _ | _ | t <;> simp only [listProgram, TypeInfo.invalid] at hs <;> cases hs
    rcases List.mem_pair.mp hf with rfl | rfl <;> decide
  have hm : ∀ t, canBeOpt (listProgram.kind t) = true →
      (listProgram.info t).implementsMarshaler = true → ∃ e, (listProgram.info t).shape = .ptr e := by
    intro t _ hmar
    rcases t with _ | _ | _ | t
    · cases hmar
    · cases hmar
    · exact ⟨0, rfl⟩
    · cases hmar
  have hu : ∀ t v inp v' out, listProgram.unmarshalXDR t v inp = .ok (v', out) → inp.Consumes out :=
    fun _ _ _ _ _ h => by cases h; exact .refl _
  have hq : quietWords [0, 0, 0, 1, 0, 0, 0, 1, 0, 0, 0, 2, 0, 0, 0, 0] = true := by decide
  have h : decode ⟨listProgram, .w64, true⟩ 8 0 (.struct [.int 0, .ptr none])
      ⟨[0, 0, 0, 1, 0, 0, 0, 1, 0, 0, 0, 2, 0, 0, 0, 0], true⟩ =
      .ok (.struct [.int 1, .ptr (some (.struct [.int 2, .ptr none]))], ⟨[], true⟩) := rfl
  ⟨htags, hm, hu, hq, h, decode_nounsafe_default htags hm hu hq h⟩

end OncXdr
