import OncXdr.Codec.RoundTrip

/-!
# OncXdr.Codec.Encoding — what every encoding satisfies

Two facts about `Encode` over every codec tree, each proved as one step per codec and an
induction on the fuel.

**The way in does not change the bytes.** A codec is reached either through `Encode`, on a
`reflect.Value` whose flags decide what `reflect` refuses, or through `encodeUnsafe`, on an
address, where nothing is refused. The source writes the two apart (`encodeReflect` against
`encodeUnsafe`, `Bytes()` against a cast of the memory, `unsafeCodecWrapper` for the codecs
with no unsafe methods), and the flags change along the way down (`Field` of an unexported
field, `Index`, `Elem`, `MapRange`). `Path.Le p q` orders the ways in: `q` is memory, or a
`reflect.Value` that is addressable when `p` is and read-only only when `p` is. Every codec
passes that order on to its children (`Path.Le.field`, `Path.Le.deref`, `Env.le_structPath`,
…), and none reads the way in except to refuse, or to convert a `float32`: `reflect` widens
it to `float64`, which quiets a signalling NaN, where memory is copied. So a way in with fewer
restrictions never changes the bytes written of a value whose `float32`s are no signalling NaNs
(`floatsQuiet`); it can only turn a panic into success (`encodeAt_mono`). Where `Encode` through
`reflect` and `encodeUnsafe` disagree otherwise, as on an `int8` opaque layer or below an
unexported field, the reflect side is the one that panics. The two builds differ only in the
ways in they give a struct and a pointee, which the default build sends to memory, so the same
order compares the builds: whatever the `nounsafe` build's `Encode` writes of such a value, the
default build's writes too (`encode_nounsafe_default`).

**The bytes are whole XDR units.** Every primitive writes four or eight bytes, opaque data and
strings are padded to a multiple of four, and the composite codecs concatenate their
children's output; so when the program's own `MarshalXDR` methods write whole units, so does
`Encode` (`encode_length_dvd`).
-/

namespace OncXdr

namespace Path

/-- `q` reaches a value with at most the restrictions of `p`: `q` is memory, or a
`reflect.Value` addressable when `p` is and read-only only when `p` is. -/
def Le (p q : Path) : Prop :=
  match q, p with
  | .mem, _ => True
  | .reflect a' r', .reflect a r => (a = true → a' = true) ∧ (r' = true → r = true)
  | .reflect .., .mem => False

instance : DecidableRel Le := fun p q =>
  match q, p with
  | .mem, _ => isTrue trivial
  | .reflect a' r', .reflect a r =>
    inferInstanceAs (Decidable ((a = true → a' = true) ∧ (r' = true → r = true)))
  | .reflect .., .mem => isFalse id

variable {p q : Path}

@[simp] theorem le_mem (p : Path) : p.Le .mem := trivial

@[simp] theorem le_reflect {a r a' r' : Bool} :
    (Path.reflect a r).Le (.reflect a' r') ↔ (a = true → a' = true) ∧ (r' = true → r = true) :=
  Iff.rfl

@[simp] theorem mem_le_reflect {a r : Bool} : ¬ Path.mem.Le (.reflect a r) := id

/-- Where the opaque array copy panics on a path (unaddressable and read-only), it panics on
every path below it too. -/
theorem Le.copyPanic {a r a' r' : Bool} (h : (Path.reflect a r).Le (.reflect a' r'))
    (hq : (!a' && r') = true) : (!a && r) = true := by
  obtain ⟨ha, hr⟩ := h
  simp only [Bool.and_eq_true, Bool.not_eq_true'] at hq ⊢
  refine ⟨?_, hr hq.2⟩
  cases a
  · rfl
  · exact absurd (ha rfl) (by rw [hq.1]; decide)

theorem le_refl (p : Path) : p.Le p := by
  rcases p with ⟨a, r⟩ | _
  · exact ⟨id, id⟩
  · trivial

theorem Le.field (x : Bool) (h : p.Le q) : (p.field x).Le (q.field x) := by
  rcases p with ⟨a, r⟩ | _ <;> rcases q with ⟨a', r'⟩ | _ <;> cases x <;> simp_all [field]

/-- Memory is below memory only. -/
theorem Le.ne_mem (h : p.Le q) (hq : q ≠ .mem) : p ≠ .mem := by
  rintro rfl
  rcases q with ⟨a', r'⟩ | _
  · exact h
  · exact hq rfl

theorem Le.deref (h : p.Le q) : p.deref.Le q.deref := by
  rcases p with ⟨a, r⟩ | _ <;> rcases q with ⟨a', r'⟩ | _ <;> simp_all [deref]

theorem Le.wrapped (h : p.Le q) : p.wrapped.Le q.wrapped := by
  rcases p with ⟨a, r⟩ | _ <;> rcases q with ⟨a', r'⟩ | _ <;> simp_all [wrapped]

/-- A way in with fewer restrictions is read-only only if the other one is. -/
theorem Le.readOnly (h : p.Le q) (hq : q.readOnly = true) : p.readOnly = true := by
  rcases p with ⟨a, r⟩ | _ <;> rcases q with ⟨a', r'⟩ | _ <;> simp_all [Path.readOnly]

/-- `reflect.Value.Set` refuses the way in with fewer restrictions only if it refuses the other
one too. -/
theorem Le.assignPanic_none (h : p.Le q) (m : String) (hp : p.assignPanic m = none) :
    q.assignPanic m = none := by
  rcases p with ⟨_ | _, _ | _⟩ | _ <;> rcases q with ⟨_ | _, _ | _⟩ | _ <;> simp_all [assignPanic]

end Path

namespace Env

variable {e e' : Env} {p q : Path}

/-! The default build sends a struct and a pointee to memory, the `nounsafe` build keeps them on
`reflect`; so the order passes from one build to itself, and from `nounsafe` to the default
build. -/

theorem le_structPath (hr : e'.reflectOnly = true → e.reflectOnly = true) (h : p.Le q) :
    (e.structPath p).Le (e'.structPath q) := by
  rcases p with ⟨_ | _, r⟩ | _ <;> rcases q with ⟨_ | _, r'⟩ | _ <;>
    cases hb : e.reflectOnly <;> cases hb' : e'.reflectOnly <;> simp_all [structPath]

theorem le_ptrPath (hr : e'.reflectOnly = true → e.reflectOnly = true) (h : p.Le q) :
    (e.ptrPath p).Le (e'.ptrPath q) := by
  rcases p with ⟨a, r⟩ | _ <;> rcases q with ⟨a', r'⟩ | _ <;>
    cases hb : e.reflectOnly <;> cases hb' : e'.reflectOnly <;> simp_all [ptrPath]

end Env

/-! ## One codec -/

/-- `encodeEach` succeeds with the same bytes under a function that succeeds with the same
bytes wherever the first does. -/
theorem encodeEach_of_ok {α : Type} {f g : α → Except Fail (List UInt8)} :
    ∀ {xs : List α} {bs : List UInt8}, (∀ x ∈ xs, ∀ bs, f x = .ok bs → g x = .ok bs) →
      encodeEach f xs = .ok bs → encodeEach g xs = .ok bs
  | [], _, _, h => h
  | x :: xs, _, hfg, h => by
    simp only [encodeEach_cons, bind_eq_ok, pure_eq_ok] at h ⊢
    obtain ⟨a, ha, r, hr, rfl⟩ := h
    exact ⟨a, hfg x (.head _) a ha, r, encodeEach_of_ok (fun y hy => hfg y (.tail _ hy)) hr, rfl⟩

/-! ## Signalling NaNs -/

/-- No `float32` the codec `c` writes from `v` is a signalling NaN, and its children (`rec`)
write none either. -/
def floatsQuietWith (rec : Key → Value → Bool) : Codec → Value → Bool
  | .floatCodec, v => !isSignalingNaN32 v.toFloat
  | .complex64Codec, v => !isSignalingNaN32 v.toComplex.1 && !isSignalingNaN32 v.toComplex.2
  | .arrayCodec ek _, v | .sliceCodec ek .., v => v.elems.all (rec ek)
  | .mapCodec kk vk .., v => v.entries.all fun kv => rec kk kv.1 && rec vk kv.2
  | .optCodec ek, v => v.isNil || rec ek v
  | .ptrCodec ek, v => rec ek v.target
  | .structCodec _ fields, v => fields.all fun f => rec f.key (v.fields.getD f.index default)
  | .unionCodec _ sw bodies cases dflt kind, v =>
    let swv := v.fields.getD sw.index default
    rec sw.key swv && bodies.all fun f =>
      armIndex cases dflt (switchValue kind swv) != some f.index ||
        rec f.key (v.fields.getD f.index default)
  | _, _ => true

/-- No `float32` the codec tree of `k` writes from `v`, within `fuel` nested codecs, is a
signalling NaN. -/
def floatsQuiet (e : Env) : Nat → Key → Value → Bool
  | 0, _, _ => true
  | n + 1, k, v =>
    match e.codec k with
    | .error _ => true
    | .ok c => floatsQuietWith (floatsQuiet e n) c v

section Step

variable {U : Universe} {w : WordSize} {r r' : Bool} (hr : r' = true → r = true)
  {Q : Key → Value → Bool} {rec rec' : Key → Path → Value → Except Fail (List UInt8)}
  (ih : ∀ k p q v bs, p.Le q → Q k v = true → rec k p v = .ok bs → rec' k q v = .ok bs)
include hr ih

/-- One codec writes the same bytes through a way in with fewer restrictions, its children
doing so, in the same build or from the `nounsafe` build to the default one, when no `float32`
it writes is a signalling NaN. -/
theorem encodeWith_mono (k : Key) (c : Codec) {p q : Path} (hpq : p.Le q) (v : Value)
    (hv : floatsQuietWith Q c v = true) {bs : List UInt8}
    (h : encodeWith ⟨U, w, r⟩ rec k c p v = .ok bs) :
    encodeWith ⟨U, w, r'⟩ rec' k c q v = .ok bs := by
  have hs : (Env.structPath ⟨U, w, r⟩ p).Le (Env.structPath ⟨U, w, r'⟩ q) := Env.le_structPath hr hpq
  cases c with
  | errorCodec | boolCodec | intCodec | uintCodec | hyperCodec | uhyperCodec | doubleCodec
  | complex128Codec | fixedStringCodec | varStringCodec => exact h
  | floatCodec =>
    -- a quiet `float32` passes the conversion of either way in unchanged
    simp only [floatsQuietWith, Bool.not_eq_true'] at hv
    simpa only [encodeWith, Path.float32Bits_of_not hv] using h
  | complex64Codec =>
    simp only [floatsQuietWith, Bool.and_eq_true, Bool.not_eq_true'] at hv
    simpa only [encodeWith, Path.float32Bits_of_not hv.1, Path.float32Bits_of_not hv.2] using h
  | marshalerCodec =>
    -- `v.Interface()` refuses a read-only value
    simp only [encodeWith] at h ⊢
    split_ifs at h with hro
    rw [if_neg fun hq => hro (hpq.wrapped.readOnly hq)]
    exact h
  | opaqueArrayCodec len =>
    rcases p with ⟨a, ro⟩ | _ <;> rcases q with ⟨a', ro'⟩ | _
    · simp only [encodeWith] at h ⊢
      split_ifs at h with h₁ h₂
      rw [if_neg fun hq => h₁ (hpq.copyPanic hq),
        if_neg (show ¬Env.elemKind ⟨U, w, r'⟩ k.type ≠ .uint8 from h₂)]
      exact h
    · simp only [encodeWith] at h ⊢
      split_ifs at h
      exact h
    · exact absurd hpq Path.mem_le_reflect
    · exact h
  | arrayCodec ek len =>
    exact encodeEach_of_ok (fun x hx bs => ih ek p q x bs hpq (List.all_eq_true.mp hv x hx)) h
  | opaqueSliceCodec maxlen origMax =>
    simp only [encodeWith] at h ⊢
    split_ifs at h with h₁ h₂
    rw [if_neg fun hq => h₁ ⟨hpq.ne_mem hq.1, hq.2⟩, if_neg h₂]
    exact h
  | sliceCodec ek maxlen origMax =>
    simp only [encodeWith] at h ⊢
    split_ifs at h with hmax
    rw [if_neg hmax]
    simp only [bind_eq_ok, pure_eq_ok] at h ⊢
    obtain ⟨r, hr, rfl⟩ := h
    exact ⟨r, encodeEach_of_ok (fun x hx bs => ih ek _ _ x bs hpq.deref
      (List.all_eq_true.mp hv x hx)) hr, rfl⟩
  | mapCodec kk vk maxlen origMax =>
    simp only [encodeWith] at h ⊢
    split_ifs at h with hmax
    rw [if_neg hmax]
    simp only [bind_eq_ok, pure_eq_ok] at h ⊢
    obtain ⟨r, hr, rfl⟩ := h
    -- `MapRange` copies are unaddressable, read-only when the map is
    have hro : (Path.reflect false p.wrapped.readOnly).Le (.reflect false q.wrapped.readOnly) :=
      Path.le_reflect.mpr ⟨id, hpq.wrapped.readOnly⟩
    refine ⟨r, encodeEach_of_ok (fun kv hm bs hkv => ?_) hr, rfl⟩
    obtain ⟨hk, hv⟩ := Bool.and_eq_true _ _ ▸ List.all_eq_true.mp hv kv hm
    simp only [bind_eq_ok, pure_eq_ok] at hkv ⊢
    obtain ⟨a, ha, b, hb, rfl⟩ := hkv
    exact ⟨a, ih kk _ _ _ a hro hk ha, b, ih vk _ _ _ b hro hv hb, rfl⟩
  | optCodec ek =>
    simp only [encodeWith] at h ⊢
    split_ifs at h ⊢ with hnil
    · exact h
    · simp only [floatsQuietWith, Bool.or_eq_true, hnil, Bool.false_eq_true, false_or] at hv
      simp only [bind_eq_ok, pure_eq_ok] at h ⊢
      obtain ⟨r, hr, rfl⟩ := h
      exact ⟨r, ih ek p q v r hpq hv hr, rfl⟩
  | ptrCodec ek =>
    simp only [encodeWith] at h ⊢
    split_ifs at h ⊢
    exact ih ek _ _ _ bs (Env.le_ptrPath hr hpq) hv h
  | structCodec name fields =>
    simp only [encodeWith] at h ⊢
    refine encodeEach_of_ok (fun f hm bs hf => ?_) h
    rw [mapError_eq_ok] at hf ⊢
    exact ih f.key _ _ _ bs (hs.field _) (List.all_eq_true.mp hv f hm) hf
  | unionCodec name sw bodies cases dflt kind =>
    simp only [floatsQuietWith, Bool.and_eq_true, List.all_eq_true, Bool.or_eq_true, bne_iff_ne,
      ne_eq] at hv
    obtain ⟨hsw, hbodies⟩ := hv
    simp only [encodeWith] at h ⊢
    -- the switch, then the arm it selects, each through the struct's way in
    split at h
    · cases h
    rename_i a ha
    split at h
    · cases h
    rename_i i hi
    split at h
    · cases h
    rename_i f hf
    split at h
    · cases h
    rename_i b hb
    -- the arm found is the one selected, whose floats are quiet
    have hfi : f.index = i := by simpa using List.find?_some hf
    have hfq := (hbodies f (List.mem_of_find?_eq_some hf)).resolve_left
      (not_not.mpr (hi.trans (congrArg some hfi.symm)))
    have ha' : rec' sw.key (((Env.mk U w r').structPath q).field ((Env.mk U w r').exported k.type
        sw.index)) (v.fields.getD sw.index default) = .ok a := ih _ _ _ _ _ (hs.field _) hsw ha
    have hb' : rec' f.key (((Env.mk U w r').structPath q).field ((Env.mk U w r').exported k.type
        f.index)) (v.fields.getD f.index default) = .ok b := ih _ _ _ _ _ (hs.field _) hfq hb
    simp only [ha', hi, hf, hb']
    exact h

end Step

/-! ## Every codec tree -/

/-- Along every codec tree within the fuel, a way in with fewer restrictions writes the same
bytes as any other that succeeds, in the same build or from the `nounsafe` build to the
default one, on a value whose `float32`s are no signalling NaNs. -/
theorem encodeAt_mono_build {U : Universe} {w : WordSize} {r r' : Bool} (hr : r' = true → r = true) :
    ∀ (n : Nat) (k : Key) (p q : Path) (v : Value) (bs : List UInt8), p.Le q →
      floatsQuiet ⟨U, w, r⟩ n k v = true →
      encodeAt ⟨U, w, r⟩ n k p v = .ok bs → encodeAt ⟨U, w, r'⟩ n k q v = .ok bs
  | 0, _, _, _, _, _, _, _, h => nomatch h
  | n + 1, k, p, q, v, bs, hpq, hv, h => by
    rw [encodeAt_succ] at h ⊢
    -- the codec tree is built from the program alone, the same in both builds
    have hc : Env.codec ⟨U, w, r'⟩ k = Env.codec ⟨U, w, r⟩ k := rfl
    rw [hc]
    unfold floatsQuiet at hv
    split at h
    · cases h
    · rename_i c hkc
      rw [hkc] at hv
      exact encodeWith_mono hr (encodeAt_mono_build hr n) k c hpq v hv h

section Tree

variable (e : Env)

/-- Along every codec tree within the fuel, a way in with fewer restrictions writes the same
bytes as any other that succeeds, when no `float32` written is a signalling NaN. -/
theorem encodeAt_mono : ∀ (n : Nat) (k : Key) (p q : Path) (v : Value) (bs : List UInt8),
    p.Le q → floatsQuiet e n k v = true → encodeAt e n k p v = .ok bs → encodeAt e n k q v = .ok bs :=
  encodeAt_mono_build (U := e.U) (w := e.w) id

/-- `P{5, []int32{1, -2}}` as `Encode` gets it, unaddressable, and as `encodeUnsafe` gets it. -/
theorem encodeAt_mono_pair :
    (Path.reflect false false).Le .mem ∧
      floatsQuiet ⟨pairProgram, .w64, false⟩ 4 (Key.base 0)
        (.struct [.int 5, .slice [.int 1, .int (-2)]]) = true ∧
      encodeAt ⟨pairProgram, .w64, false⟩ 4 (Key.base 0) (.reflect false false)
        (.struct [.int 5, .slice [.int 1, .int (-2)]]) =
        .ok [0, 0, 0, 5, 0, 0, 0, 2, 0, 0, 0, 1, 255, 255, 255, 254] ∧
      encodeAt ⟨pairProgram, .w64, false⟩ 4 (Key.base 0) .mem
        (.struct [.int 5, .slice [.int 1, .int (-2)]]) =
        .ok [0, 0, 0, 5, 0, 0, 0, 2, 0, 0, 0, 1, 255, 255, 255, 254] :=
  ⟨trivial, rfl, rfl, encodeAt_mono _ 4 (Key.base 0) (.reflect false false) .mem _ _ trivial rfl rfl⟩

end Tree

/-- The lookups of a top-level call build the same codecs in both builds. -/
theorem construct_build {U : Universe} {w : WordSize} (r r' : Bool) :
    ∀ (n : Nat) (ks known : List Key), construct ⟨U, w, r⟩ n ks known = construct ⟨U, w, r'⟩ n ks known
  | 0, [], _ | _ + 1, [], _ | 0, _ :: _, _ => rfl
  | n + 1, _ :: _, _ => by simp only [construct, construct_build r r' n]

/-- Whatever the `nounsafe` build's `Encode` writes of a value whose `float32`s are no signalling
NaNs, the default build's writes too. -/
theorem encode_nounsafe_default {U : Universe} {w : WordSize} {fuel : Nat} {t : TypeId} {v : Value}
    {bs : List UInt8} (hv : floatsQuiet ⟨U, w, true⟩ fuel (Key.base t) v = true)
    (h : encode ⟨U, w, true⟩ fuel t v = .ok bs) : encode ⟨U, w, false⟩ fuel t v = .ok bs := by
  unfold encode at h ⊢
  rw [construct_build false true]
  split at h
  · cases h
  · exact encodeAt_mono_build (fun _ => rfl) fuel _ _ _ v bs (Path.le_reflect.mpr ⟨id, id⟩) hv h

/-- `P{5, []int32{1, -2}}` is written alike by both builds. -/
theorem encode_nounsafe_default_pair :
    floatsQuiet ⟨pairProgram, .w64, true⟩ 4 (Key.base 0)
        (.struct [.int 5, .slice [.int 1, .int (-2)]]) = true ∧
      encode ⟨pairProgram, .w64, true⟩ 4 0 (.struct [.int 5, .slice [.int 1, .int (-2)]]) =
        .ok [0, 0, 0, 5, 0, 0, 0, 2, 0, 0, 0, 1, 255, 255, 255, 254] ∧
      encode ⟨pairProgram, .w64, false⟩ 4 0 (.struct [.int 5, .slice [.int 1, .int (-2)]]) =
        .ok [0, 0, 0, 5, 0, 0, 0, 2, 0, 0, 0, 1, 255, 255, 255, 254] :=
  have hv : floatsQuiet ⟨pairProgram, .w64, true⟩ 4 (Key.base 0)
      (.struct [.int 5, .slice [.int 1, .int (-2)]]) = true := rfl
  have h : encode ⟨pairProgram, .w64, true⟩ 4 0 (.struct [.int 5, .slice [.int 1, .int (-2)]]) =
      .ok [0, 0, 0, 5, 0, 0, 0, 2, 0, 0, 0, 1, 255, 255, 255, 254] := rfl
  ⟨hv, h, encode_nounsafe_default hv h⟩

/-- A program with a pointer to a `float32`: `0` is `*float32`, `1` is `float32`. -/
def floatPtrProgram : Universe where
  info
    | 0 => ⟨.ptr 1, "", false, .none⟩
    | 1 => ⟨.scalar .float32, "float32", true, .none⟩
    | _ => TypeInfo.invalid
  zero
    | 0 => .ptr none
    | 1 => .float 0
    | _ => .ref true
  zero_eq t := by rcases t with _ | _ | t <;> rfl
  marshalXDR _ _ := .ok []
  unmarshalXDR _ v inp := .ok (v, inp)

/-- The signalling NaN `0x7F800001` behind a pointer is where the builds part: with `nounsafe`,
`v.Elem().Float()` quiets it, and the default build's `encodeUnsafe` writes it as it is. -/
example :
    encode ⟨floatPtrProgram, .w64, true⟩ 3 0 (.ptr (some (.float 0x7F800001))) =
      .ok [0x7F, 0xC0, 0, 1] ∧
    encode ⟨floatPtrProgram, .w64, false⟩ 3 0 (.ptr (some (.float 0x7F800001))) =
      .ok [0x7F, 0x80, 0, 1] :=
  ⟨rfl, rfl⟩

/-! ## Whole XDR units -/

section Units

theorem length_encodeFixedOpaque_dvd (buf : List UInt8) : 4 ∣ (encodeFixedOpaque buf).length := by
  simpa [encodeFixedOpaque] using add_padLen_dvd buf.length

theorem encodeOpaque_length_dvd {buf bs : List UInt8} (h : encodeOpaque buf = .ok bs) :
    4 ∣ bs.length := by
  unfold encodeOpaque at h
  split_ifs at h
  cases h
  rw [List.length_append, encodeUnsignedInt, length_be]
  exact Nat.dvd_add (Nat.dvd_refl 4) (length_encodeFixedOpaque_dvd buf)

/-- A sequence of encodings of whole units is whole units. -/
theorem encodeEach_length_dvd {α : Type} {f : α → Except Fail (List UInt8)} :
    ∀ {xs : List α} {bs : List UInt8}, (∀ x ∈ xs, ∀ bs, f x = .ok bs → 4 ∣ bs.length) →
      encodeEach f xs = .ok bs → 4 ∣ bs.length
  | [], _, _, h => by cases h; exact Nat.dvd_zero 4
  | x :: xs, _, hf, h => by
    simp only [encodeEach_cons, bind_eq_ok, pure_eq_ok] at h
    obtain ⟨a, ha, r, hr, rfl⟩ := h
    rw [List.length_append]
    exact Nat.dvd_add (hf x (.head _) a ha) (encodeEach_length_dvd (fun y hy => hf y (.tail _ hy)) hr)

variable (e : Env) (hm : ∀ t v bs, e.U.marshalXDR t v = .ok bs → 4 ∣ bs.length)
include hm

/-- One codec writes whole units, its children and the program's `MarshalXDR` methods doing
so. -/
theorem encodeWith_length_dvd {rec : Key → Path → Value → Except Fail (List UInt8)}
    (ih : ∀ k p v bs, rec k p v = .ok bs → 4 ∣ bs.length) (k : Key) (c : Codec) (p : Path)
    (v : Value) {bs : List UInt8} (h : encodeWith e rec k c p v = .ok bs) : 4 ∣ bs.length := by
  have h4 (u : Nat) : 4 ∣ (be 4 u).length := Nat.dvd_of_mod_eq_zero (by rw [length_be])
  cases c with
  | errorCodec => cases h
  | marshalerCodec =>
    simp only [encodeWith] at h
    split_ifs at h
    exact hm _ _ _ ((mapError_eq_ok).mp h)
  | boolCodec | intCodec | uintCodec | hyperCodec | uhyperCodec | floatCodec | doubleCodec
  | complex64Codec | complex128Codec =>
    simp only [encodeWith, Except.ok.injEq] at h
    subst h
    simp only [encodeBool, encodeInt, encodeUnsignedInt, encodeHyper, encodeUnsignedHyper,
      encodeFloat, encodeDouble, List.length_append, length_be]
    exact Nat.dvd_of_mod_eq_zero rfl
  | fixedStringCodec len =>
    simp only [encodeWith] at h
    split_ifs at h
    cases h
    exact length_encodeFixedOpaque_dvd _
  | varStringCodec maxlen origMax =>
    simp only [encodeWith] at h
    split_ifs at h
    exact encodeOpaque_length_dvd ((mapError_eq_ok).mp h)
  | opaqueArrayCodec len =>
    cases p with
    | mem => cases h; exact length_encodeFixedOpaque_dvd _
    | reflect a r =>
      simp only [encodeWith] at h
      split_ifs at h
      cases h
      exact length_encodeFixedOpaque_dvd _
  | arrayCodec ek len => exact encodeEach_length_dvd (fun x _ bs => ih ek p x bs) h
  | opaqueSliceCodec maxlen origMax =>
    simp only [encodeWith] at h
    split_ifs at h
    exact encodeOpaque_length_dvd ((mapError_eq_ok).mp h)
  | sliceCodec ek maxlen origMax =>
    simp only [encodeWith] at h
    split_ifs at h
    simp only [bind_eq_ok, pure_eq_ok] at h
    obtain ⟨r, hr, rfl⟩ := h
    rw [List.length_append]
    exact Nat.dvd_add (h4 _) (encodeEach_length_dvd (fun x _ bs => ih ek _ x bs) hr)
  | mapCodec kk vk maxlen origMax =>
    simp only [encodeWith] at h
    split_ifs at h
    simp only [bind_eq_ok, pure_eq_ok] at h
    obtain ⟨r, hr, rfl⟩ := h
    rw [List.length_append]
    refine Nat.dvd_add (h4 _) (encodeEach_length_dvd (fun kv _ bs hkv => ?_) hr)
    simp only [bind_eq_ok, pure_eq_ok] at hkv
    obtain ⟨a, ha, b, hb, rfl⟩ := hkv
    rw [List.length_append]
    exact Nat.dvd_add (ih kk _ _ a ha) (ih vk _ _ b hb)
  | optCodec ek =>
    simp only [encodeWith] at h
    split_ifs at h
    · cases h
      exact h4 _
    · simp only [bind_eq_ok, pure_eq_ok] at h
      obtain ⟨r, hr, rfl⟩ := h
      rw [List.length_append]
      exact Nat.dvd_add (h4 _) (ih ek p v r hr)
  | ptrCodec ek =>
    simp only [encodeWith] at h
    split_ifs at h
    exact ih ek _ _ bs h
  | structCodec name fields =>
    refine encodeEach_length_dvd (fun f _ bs hf => ih f.key _ _ bs ((mapError_eq_ok).mp hf)) h
  | unionCodec name sw bodies cases dflt kind =>
    simp only [encodeWith] at h
    split at h
    · cases h
    rename_i a ha
    split at h
    · cases h
    split at h
    · cases h
    split at h
    · cases h
    rename_i b hb
    cases h
    rw [List.length_append]
    exact Nat.dvd_add (ih _ _ _ a ha) (ih _ _ _ b hb)

/-- Along every codec tree, what is written is whole four-byte units. -/
theorem encodeAt_length_dvd : ∀ (n : Nat) (k : Key) (p : Path) (v : Value) (bs : List UInt8),
    encodeAt e n k p v = .ok bs → 4 ∣ bs.length
  | 0, _, _, _, _, h => by cases h
  | n + 1, k, p, v, bs, h => by
    rw [encodeAt_succ] at h
    split at h
    · cases h
    · exact encodeWith_length_dvd e hm (encodeAt_length_dvd n) k _ p v h

/-- `Encode` writes whole four-byte units, when the program's `MarshalXDR` methods do. -/
theorem encode_length_dvd {fuel : Nat} {t : TypeId} {v : Value} {bs : List UInt8}
    (h : encode e fuel t v = .ok bs) : 4 ∣ bs.length := by
  unfold encode at h
  split at h
  · cases h
  · exact encodeAt_length_dvd e hm _ _ _ v bs h

end Units

/-- `P{5, []int32{1, -2}}` is written as four units; `P` declares no `MarshalXDR`. -/
theorem encode_length_dvd_pair :
    (∀ t v bs, pairProgram.marshalXDR t v = .ok bs → 4 ∣ bs.length) ∧
      encode ⟨pairProgram, .w64, false⟩ 4 0 (.struct [.int 5, .slice [.int 1, .int (-2)]]) =
        .ok [0, 0, 0, 5, 0, 0, 0, 2, 0, 0, 0, 1, 255, 255, 255, 254] ∧
      4 ∣ [(0 : UInt8), 0, 0, 5, 0, 0, 0, 2, 0, 0, 0, 1, 255, 255, 255, 254].length :=
  have hm : ∀ t v bs, pairProgram.marshalXDR t v = .ok bs → 4 ∣ bs.length :=
    fun _ _ _ h => by cases h; exact Nat.dvd_zero 4
  have henc : encode ⟨pairProgram, .w64, false⟩ 4 0 (.struct [.int 5, .slice [.int 1, .int (-2)]]) =
      .ok [0, 0, 0, 5, 0, 0, 0, 2, 0, 0, 0, 1, 255, 255, 255, 254] := rfl
  ⟨hm, henc, encode_length_dvd _ hm henc⟩

end OncXdr
