import OncXdr.Codec.Encoding
import OncXdr.Codec.Framing

/-!
# OncXdr.Codec.DecodeUnsafe — `decodeUnsafe` reads what `Decode` reads

The default build decodes a struct, a union and a pointee through `decodeUnsafe`, on the
address of the destination; the `nounsafe` build keeps them on `reflect`. This module compares
the two, as `Codec.Encoding` does for `Encode`.

Every decode path is addressable: `Decode(&x)` starts from `reflect.ValueOf(&x).Elem()`, and a
field, an element, a pointee and a map entry of an addressable value are addressable. Along such
paths, `Path.Le` orders the ways in as for encoding, and every codec passes the order on to its
children. A way in with fewer restrictions reads the same bytes into the same value; it can only
turn a panic into success.

Two codecs read the way in beyond refusing it. `optCodec`: `Decode` first sets the pointer to
`nilp` and decodes the element into that, `decodeUnsafe` decodes the element into the memory as
it is. The two agree when the element codec makes its value anew, as the codecs of the optional
types Go allows do (pointers, slices, maps): `optsFresh` asks this of every optional layer of a
tree. And `floatCodec` and `complex64Codec`: `SetFloat(float64(f))` quiets a signalling NaN,
memory takes the bits read; the two agree on a stream in which no four bytes form one
(`quietWords`). On such trees and streams, whatever the `nounsafe` build's `Decode` gives, the
default build's gives too (`decode_nounsafe_default_of_optsFresh`); `Codec.OptLayers` shows that
the trees of a program's types are such trees.
-/

namespace OncXdr

/-! ## Codecs that make their value anew -/

/-- Whether the codec's `Decode` reads the destination it is given: a marshaler hands it back, an
array, a struct and a union decode into it, an optional through memory decodes into it. Every
other codec makes its value from the stream alone. -/
def Codec.readsDest : Codec → Bool
  | .marshalerCodec | .arrayCodec .. | .optCodec _ | .structCodec .. | .unionCodec .. => true
  | _ => false

/-- The codec of `k` makes its value anew, or cannot be built. -/
def Env.decodesAnew (e : Env) (k : Key) : Bool :=
  match e.codec k with
  | .ok c => !c.readsDest
  | .error _ => true

/-- The codec `c`, if it is optional, wraps a codec that makes its value anew, and its children
(`rec`) satisfy the same. -/
def optsFreshWith (e : Env) (rec : Key → Bool) : Codec → Bool
  | .optCodec ek => e.decodesAnew ek && rec ek
  | .arrayCodec ek _ | .sliceCodec ek .. | .ptrCodec ek => rec ek
  | .mapCodec kk vk .. => rec kk && rec vk
  | .structCodec _ fields => fields.all fun f => rec f.key
  | .unionCodec _ sw bodies .. => rec sw.key && bodies.all fun f => rec f.key
  | _ => true

/-- Every optional layer in the tree of `k`, within `fuel` nested codecs, wraps a codec that
makes its value anew. -/
def optsFresh (e : Env) : Nat → Key → Bool
  | 0, _ => true
  | n + 1, k =>
    match e.codec k with
    | .error _ => true
    | .ok c => optsFreshWith e (optsFresh e n) c

section Anew

variable (e : Env)

/-- A codec that makes its value anew gives the same result on every destination. -/
theorem decodeWith_anew (rec : Key → Path → Value → Input → Except Fail (Value × Input)) (k : Key)
    {c : Codec} (hc : c.readsDest = false) (p : Path) (v v' : Value) (inp : Input) :
    decodeWith e rec k c p v inp = decodeWith e rec k c p v' inp := by
  cases c <;> cases p <;> first | rfl | cases hc

theorem decodeAt_anew {k : Key} (hk : e.decodesAnew k = true) :
    ∀ (n : Nat) (p : Path) (v v' : Value) (inp : Input),
      decodeAt e n k p v inp = decodeAt e n k p v' inp
  | 0, _, _, _, _ => rfl
  | n + 1, p, v, v', inp => by
    unfold Env.decodesAnew at hk
    unfold decodeAt
    split
    · rfl
    · rename_i c hc
      rw [hc, Bool.not_eq_true'] at hk
      exact decodeWith_anew e _ k hk p v v' inp

end Anew

/-! ## Decode paths -/

namespace Path

variable {p q : Path}

theorem Le.addressable (h : p.Le q) (hp : p.addressable = true) : q.addressable = true := by
  rcases p with ⟨a, r⟩ | _ <;> rcases q with ⟨a', r'⟩ | _ <;> simp_all [Path.addressable]

@[simp] theorem addressable_deref (p : Path) : p.deref.addressable = true := by
  cases p <;> rfl

@[simp] theorem addressable_field (x : Bool) (p : Path) :
    (p.field x).addressable = p.addressable := by
  cases p <;> rfl

end Path

theorem Env.addressable_structPath (e : Env) {p : Path} (hp : p.addressable = true) :
    (e.structPath p).addressable = true := by
  rcases p with ⟨_ | _, r⟩ | _
  · cases hp
  · simp only [Env.structPath]; split <;> rfl
  · rfl

@[simp] theorem Env.addressable_ptrPath (e : Env) (p : Path) : (e.ptrPath p).addressable = true := by
  rcases p with ⟨a, r⟩ | _
  · simp only [Env.ptrPath]; split <;> rfl
  · rfl

/-! ## Streams without a signalling NaN -/

/-- No four consecutive bytes of `l` form a `float32` signalling NaN. -/
def quietWords : List UInt8 → Bool
  | [] => true
  | b :: l => !isSignalingNaN32 (fromBE ((b :: l).take 4)) && quietWords l

theorem quietWords_of_append : ∀ {c l : List UInt8}, quietWords (c ++ l) = true → quietWords l = true
  | [], _, h => h
  | _ :: _, _, h => quietWords_of_append (Bool.and_eq_true _ _ ▸ h).2

/-- What a read leaves of such a stream is such a stream. -/
theorem Input.Consumes.quietWords {inp out : Input} (h : inp.Consumes out)
    (hq : quietWords inp.rest = true) : quietWords out.rest = true := by
  obtain ⟨c, hc, -⟩ := h
  rw [hc] at hq
  exact quietWords_of_append hq

/-- A word read from such a stream is no signalling NaN. -/
theorem decodeUnsignedInt_quiet {inp out : Input} {x : Nat} (h : decodeUnsignedInt inp = .ok (x, out))
    (hq : quietWords inp.rest = true) : isSignalingNaN32 x = false := by
  unfold decodeUnsignedInt readFull at h
  split_ifs at h with hn
  cases h
  cases hr : inp.rest with
  | nil => rw [hr] at hn; cases hn
  | cons b l =>
    rw [hr] at hq
    simp only [quietWords, Bool.and_eq_true, Bool.not_eq_true'] at hq
    simpa using hq.1

/-- On such a stream a `float32` is stored as read, whatever the way in. -/
theorem readAs_float32Bits (p : Path) {inp : Input} (hq : quietWords inp.rest = true) :
    readAs (fun b => .float (p.float32Bits b)) (decodeUnsignedInt inp) =
      readAs .float (decodeUnsignedInt inp) := by
  cases h : decodeUnsignedInt inp with
  | error => rfl
  | ok r => simp [readAs, Path.float32Bits_of_not (decodeUnsignedInt_quiet h hq)]

/-! ## The codecs' loops -/

section Loops

variable {f g : Value → Input → Except Fail (Value × Input)}

/-- A primitive `Decode` that succeeds on a way in succeeds alike on one with fewer
restrictions. -/
theorem setAfter_mono {m : String} {p q : Path} (hpq : p.Le q) {r : Except Fail (Value × Input)}
    {x : Value × Input} (h : setAfter m p r = .ok x) : setAfter m q r = .ok x := by
  obtain ⟨hp, rfl⟩ := setAfter_eq_ok h
  exact setAfter_ok (hpq.assignPanic_none m hp) x

/-! Each loop passes a stream without signalling NaNs on from one call to the next, since every
call reads a prefix of its stream. -/

theorem decodeEach_of_ok (hf : ∀ x inp res, f x inp = .ok res → inp.Consumes res.2)
    (hfg : ∀ x inp res, quietWords inp.rest = true → f x inp = .ok res → g x inp = .ok res) :
    ∀ {xs : List Value} {inp : Input} {res : List Value × Input}, quietWords inp.rest = true →
      decodeEach f xs inp = .ok res → decodeEach g xs inp = .ok res
  | [], _, _, _, h => h
  | _ :: _, _, _, hq, h => by
    simp only [decodeEach, bind_eq_ok, pure_eq_ok] at h ⊢
    obtain ⟨a, ha, b, hb, rfl⟩ := h
    exact ⟨a, hfg _ _ _ hq ha, b, decodeEach_of_ok hf hfg ((hf _ _ _ ha).quietWords hq) hb, rfl⟩

theorem decodeFields_of_ok {f g : FieldRec → Value → Input → Except Fail (Value × Input)}
    (hf : ∀ r x inp res, f r x inp = .ok res → inp.Consumes res.2) :
    ∀ {rs : List FieldRec}, (∀ r ∈ rs, ∀ x inp res, quietWords inp.rest = true →
      f r x inp = .ok res → g r x inp = .ok res) →
      ∀ {fs : List Value} {inp : Input} {res : List Value × Input}, quietWords inp.rest = true →
        decodeFields f rs fs inp = .ok res → decodeFields g rs fs inp = .ok res
  | [], _, _, _, _, _, h => h
  | _ :: _, hfg, _, _, _, hq, h => by
    simp only [decodeFields, bind_eq_ok] at h ⊢
    obtain ⟨a, ha, h⟩ := h
    exact ⟨a, hfg _ (.head _) _ _ _ hq ha,
      decodeFields_of_ok hf (fun r hr => hfg r (.tail _ hr)) ((hf _ _ _ _ ha).quietWords hq) h⟩

theorem decodeEntries_of_ok {fk fv gk gv : Input → Except Fail (Value × Input)}
    (hfk : ∀ inp res, fk inp = .ok res → inp.Consumes res.2)
    (hfv : ∀ inp res, fv inp = .ok res → inp.Consumes res.2)
    (hk : ∀ inp res, quietWords inp.rest = true → fk inp = .ok res → gk inp = .ok res)
    (hv : ∀ inp res, quietWords inp.rest = true → fv inp = .ok res → gv inp = .ok res) :
    ∀ {n : Nat} {acc : List (Value × Value)} {inp : Input} {res : List (Value × Value) × Input},
      quietWords inp.rest = true →
      decodeEntries fk fv n acc inp = .ok res → decodeEntries gk gv n acc inp = .ok res
  | 0, _, _, _, _, h => h
  | _ + 1, _, _, _, hq, h => by
    simp only [decodeEntries, bind_eq_ok] at h ⊢
    obtain ⟨a, ha, b, hb, h⟩ := h
    have hq₁ := (hfk _ _ ha).quietWords hq
    exact ⟨a, hk _ _ hq ha, b, hv _ _ hq₁ hb,
      decodeEntries_of_ok hfk hfv hk hv ((hfv _ _ hb).quietWords hq₁) h⟩

end Loops

/-! ## One codec -/

section Step

variable {U : Universe} {w : WordSize} {r r' : Bool} (hr : r' = true → r = true) {P : Key → Bool}
  {rec rec' : Key → Path → Value → Input → Except Fail (Value × Input)}
  (hcons : ∀ k p v inp res, rec k p v inp = .ok res → inp.Consumes res.2)
  (ih : ∀ k, P k = true → ∀ p q v inp res, p.addressable = true → p.Le q →
    quietWords inp.rest = true → rec k p v inp = .ok res → rec' k q v inp = .ok res)
  (hanew : ∀ k, Env.decodesAnew ⟨U, w, r⟩ k = true → ∀ v v' inp,
    rec' k .mem v inp = rec' k .mem v' inp)
include hr hcons ih hanew

/-- One codec reads the same value through an addressable way in with fewer restrictions, from a
stream without signalling NaNs, its children doing so, in the same build or from the `nounsafe`
build to the default one. -/
theorem decodeWith_mono (k : Key) {c : Codec} (hc : optsFreshWith ⟨U, w, r⟩ P c = true)
    {p q : Path} (ha : p.addressable = true) (hpq : p.Le q) (v : Value) (inp : Input)
    (hq : quietWords inp.rest = true) {res : Value × Input}
    (h : decodeWith ⟨U, w, r⟩ rec k c p v inp = .ok res) :
    decodeWith ⟨U, w, r'⟩ rec' k c q v inp = .ok res := by
  have hs : (Env.structPath ⟨U, w, r⟩ p).Le (Env.structPath ⟨U, w, r'⟩ q) := Env.le_structPath hr hpq
  have hsa : (Env.structPath ⟨U, w, r⟩ p).addressable = true := Env.addressable_structPath _ ha
  cases c with
  | errorCodec => cases h
  | boolCodec | intCodec | uintCodec | hyperCodec | uhyperCodec | doubleCodec
  | fixedStringCodec | varStringCodec => exact setAfter_mono hpq h
  | floatCodec =>
    -- the word read is no signalling NaN, which both ways in store as read
    simp only [decodeWith, readAs_float32Bits _ hq] at h ⊢
    exact setAfter_mono hpq h
  | complex64Codec =>
    simp only [decodeWith] at h ⊢
    split at h
    · cases h
    rename_i re inp₁ hre
    split at h
    · cases h
    rename_i im inp₂ him
    have hq₁ := (decodeUnsignedInt_consumes hre).quietWords hq
    rw [Path.float32Bits_of_not (decodeUnsignedInt_quiet hre hq),
      Path.float32Bits_of_not (decodeUnsignedInt_quiet him hq₁)] at h ⊢
    exact setAfter_mono hpq h
  | complex128Codec =>
    simp only [decodeWith] at h ⊢
    split at h
    · cases h
    split at h
    · cases h
    exact setAfter_mono hpq h
  | marshalerCodec =>
    -- `v.Interface()` refuses a read-only value
    simp only [decodeWith] at h ⊢
    split_ifs at h with hro
    rw [if_neg fun hq => hro (hpq.wrapped.readOnly hq)]
    exact h
  | opaqueArrayCodec len =>
    rcases p with ⟨a, ro⟩ | _ <;> rcases q with ⟨a', ro'⟩ | _
    · simp only [decodeWith] at h ⊢
      split_ifs at h with h₁ h₂
      rw [if_neg (by simpa using hpq.1 (by simpa using h₁)),
        if_neg (show ¬Env.elemKind ⟨U, w, r'⟩ k.type ≠ .uint8 from h₂)]
      exact h
    · simp only [decodeWith] at h ⊢
      split_ifs at h with h₁ h₂
      rw [show Env.elemKind ⟨U, w, r'⟩ k.type = .uint8 from not_not.mp h₂]
      exact h
    · exact absurd hpq Path.mem_le_reflect
    · exact h
  | arrayCodec ek len =>
    obtain ⟨a, ha', rfl⟩ := map_eq_ok.mp h
    exact map_eq_ok.mpr ⟨a, decodeEach_of_ok (hcons ek p) (fun x inp res hq =>
      ih ek hc p q x inp res ha hpq hq) hq ha', rfl⟩
  | opaqueSliceCodec maxlen origMax =>
    rcases p with ⟨a, ro⟩ | _ <;> rcases q with ⟨a', ro'⟩ | _
    · simp only [decodeWith] at h ⊢
      split at h
      · cases h
      split at h
      · cases h
      rename_i hp
      simp only [hpq.assignPanic_none _ hp]
      exact h
    · -- `SetBytes` takes only `[]byte`, whose elements `decodeUnsafe` writes as they are
      simp only [decodeWith] at h ⊢
      split at h
      · cases h
      split at h
      · cases h
      split_ifs at h with hb
      have hu : Env.elemKind ⟨U, w, r'⟩ k.type = .uint8 := by
        simp only [Env.bytesAssignable, Bool.not_eq_true', Bool.not_eq_false, Bool.and_eq_true,
          beq_iff_eq] at hb
        exact hb.1
      rw [hu]
      exact h
    · exact absurd hpq Path.mem_le_reflect
    · exact h
  | sliceCodec ek maxlen origMax =>
    simp only [decodeWith] at h ⊢
    split at h
    · cases h
    rename_i l inp₁ hl
    split_ifs at h with h0 hmax
    · rw [if_pos h0]
      exact setAfter_mono hpq h
    rw [if_neg h0, if_neg hmax]
    split at h
    · cases h
    rename_i hp
    rw [hpq.assignPanic_none _ hp]
    obtain ⟨a, ha', rfl⟩ := map_eq_ok.mp h
    exact map_eq_ok.mpr ⟨a, decodeEach_of_ok (hcons ek _) (fun x inp res hq =>
      ih ek hc _ _ x inp res (Path.addressable_deref p) hpq.deref hq)
      ((decodeUnsignedInt_consumes hl).quietWords hq) ha', rfl⟩
  | mapCodec kk vk maxlen origMax =>
    obtain ⟨hk, hv⟩ := Bool.and_eq_true _ _ ▸ hc
    simp only [decodeWith] at h ⊢
    split at h
    · cases h
    rename_i l inp₁ hl
    split_ifs at h with hmax
    rw [if_neg hmax]
    split at h
    · cases h
    rename_i hp
    rw [hpq.wrapped.assignPanic_none _ hp]
    -- a map's keys and values are decoded into new addressable values
    obtain ⟨a, ha', rfl⟩ := map_eq_ok.mp h
    exact map_eq_ok.mpr ⟨a, decodeEntries_of_ok (hcons kk _ _) (hcons vk _ _)
      (fun inp res hq => ih kk hk (.reflect true false) _ _ inp res rfl (Path.le_refl _) hq)
      (fun inp res hq => ih vk hv (.reflect true false) _ _ inp res rfl (Path.le_refl _) hq)
      ((decodeUnsignedInt_consumes hl).quietWords hq) ha', rfl⟩
  | optCodec ek =>
    obtain ⟨hnew, hek⟩ := Bool.and_eq_true _ _ ▸ hc
    rcases p with ⟨a, ro⟩ | _ <;> rcases q with ⟨a', ro'⟩ | _
    · simp only [decodeWith] at h ⊢
      split at h
      · cases h
      rename_i hp
      simp only [hpq.assignPanic_none _ hp]
      split at h
      · cases h
      · rename_i inp₁ hb
        obtain ⟨u, hu⟩ := decodeBool_eq_ok hb
        exact ih ek hek _ _ _ _ _ ha hpq ((decodeUnsignedInt_consumes hu).quietWords hq) h
      · exact h
    · -- `Decode` decodes the element into `nilp`, `decodeUnsafe` into the memory as it is
      simp only [decodeWith] at h ⊢
      split at h
      · cases h
      split at h
      · cases h
      · rename_i inp₁ hb
        obtain ⟨u, hu⟩ := decodeBool_eq_ok hb
        rw [hanew ek hnew v (U.zero k.type)]
        exact ih ek hek _ _ _ _ _ ha (Path.le_mem _) ((decodeUnsignedInt_consumes hu).quietWords hq) h
      · exact h
    · exact absurd hpq Path.mem_le_reflect
    · simp only [decodeWith] at h ⊢
      split at h
      · cases h
      · rename_i inp₁ hb
        obtain ⟨u, hu⟩ := decodeBool_eq_ok hb
        exact ih ek hek .mem .mem _ _ _ rfl hpq ((decodeUnsignedInt_consumes hu).quietWords hq) h
      · exact h
  | ptrCodec ek =>
    simp only [decodeWith] at h ⊢
    split at h
    · cases h
    rename_i hp
    rw [hpq.assignPanic_none _ hp]
    obtain ⟨a, ha', rfl⟩ := map_eq_ok.mp h
    exact map_eq_ok.mpr ⟨a, ih ek hc _ _ _ inp _ (Env.addressable_ptrPath _ p)
      (Env.le_ptrPath hr hpq) hq ha', rfl⟩
  | structCodec name fields =>
    simp only [decodeWith] at h ⊢
    rw [if_neg (by simp [hpq.addressable ha])]
    split_ifs at h
    obtain ⟨a, ha', rfl⟩ := map_eq_ok.mp h
    refine map_eq_ok.mpr ⟨a, decodeFields_of_ok (fun f x inp res hx => hcons _ _ _ _ _
      (mapError_eq_ok.mp hx)) (fun f hf x inp res hq hx => ?_) hq ha', rfl⟩
    rw [mapError_eq_ok] at hx ⊢
    exact ih f.key (List.all_eq_true.mp hc f hf) _ _ _ _ _ (by simpa using hsa) (hs.field _) hq hx
  | unionCodec name sw bodies cases dflt kind =>
    obtain ⟨hsw, hbodies⟩ := Bool.and_eq_true _ _ ▸ hc
    simp only [decodeWith] at h ⊢
    rw [if_neg (by simp [hpq.addressable ha])]
    split_ifs at h
    -- the switch, then the arm it selects, each into its field
    split at h
    · cases h
    rename_i swv inp₁ hsv
    split at h
    · cases h
    rename_i i hi
    split at h
    · cases h
    rename_i f hf
    split at h
    · cases h
    rename_i x inp₂ hx
    cases h
    have hsv' : rec' sw.key (((Env.mk U w r').structPath q).field ((Env.mk U w r').exported k.type
        sw.index)) (v.fields.getD sw.index default) inp = .ok (swv, inp₁) :=
      ih _ hsw _ _ _ _ _ (by simpa using hsa) (hs.field _) hq hsv
    have hx' : rec' f.key (((Env.mk U w r').structPath q).field ((Env.mk U w r').exported k.type
        f.index)) ((v.fields.set sw.index swv).getD f.index default) inp₁ = .ok (x, inp₂) :=
      ih _ (List.all_eq_true.mp hbodies f (List.mem_of_find?_eq_some hf)) _ _ _ _ _
        (by simpa using hsa) (hs.field _) ((hcons _ _ _ _ _ hsv).quietWords hq) hx
    simp only [hsv', hi, hf, hx']

end Step

/-! ## Every codec tree -/

/-- Along every codec tree within the fuel whose optional layers wrap codecs that make their
value anew, an addressable way in with fewer restrictions reads the same value as any other that
succeeds, from a stream without signalling NaNs, in the same build or from the `nounsafe` build
to the default one, when the program's `UnmarshalXDR` methods read a prefix of their stream. -/
theorem decodeAt_mono_build {U : Universe} {w : WordSize} {r r' : Bool} (hr : r' = true → r = true)
    (hu : ∀ t v inp v' out, U.unmarshalXDR t v inp = .ok (v', out) → inp.Consumes out) :
    ∀ (n : Nat) (k : Key), optsFresh ⟨U, w, r⟩ n k = true →
      ∀ (p q : Path) (v : Value) (inp : Input) (res : Value × Input), p.addressable = true →
        p.Le q → quietWords inp.rest = true →
        decodeAt ⟨U, w, r⟩ n k p v inp = .ok res → decodeAt ⟨U, w, r'⟩ n k q v inp = .ok res
  | 0, _, _, _, _, _, _, _, _, _, _, h => nomatch h
  | n + 1, k, hk, p, q, v, inp, res, ha, hpq, hq, h => by
    unfold decodeAt at h ⊢
    -- the codec tree is built from the program alone, the same in both builds
    have hc : Env.codec ⟨U, w, r'⟩ k = Env.codec ⟨U, w, r⟩ k := rfl
    rw [hc]
    split at h
    · cases h
    rename_i c hkc
    rw [optsFresh, hkc] at hk
    exact decodeWith_mono hr
      (fun k p v inp res h => (decodeAt_advances _ n k p v inp res.1 res.2 h).consumes hu)
      (fun k hk => decodeAt_mono_build hr hu n k hk)
      (fun k hk' => decodeAt_anew ⟨U, w, r'⟩ hk' n .mem) k hk ha hpq v inp hq h

/-- Whatever the `nounsafe` build's `Decode` gives, the default build's gives too, on a type
whose optional layers wrap codecs that make their value anew, from a stream without signalling
NaNs, when the program's `UnmarshalXDR` methods read a prefix of their stream. -/
theorem decode_nounsafe_default_of_optsFresh {U : Universe} {w : WordSize} {fuel : Nat}
    {t : TypeId} {x : Value} {inp : Input} {res : Value × Input}
    (hu : ∀ t v inp v' out, U.unmarshalXDR t v inp = .ok (v', out) → inp.Consumes out)
    (hopt : optsFresh ⟨U, w, true⟩ fuel (Key.base t) = true) (hq : quietWords inp.rest = true)
    (h : decode ⟨U, w, true⟩ fuel t x inp = .ok res) : decode ⟨U, w, false⟩ fuel t x inp = .ok res := by
  unfold decode at h ⊢
  rw [construct_build false true]
  split at h
  · cases h
  · exact decodeAt_mono_build (fun _ => rfl) hu fuel _ hopt (.reflect true false) _ x inp res rfl
      (Path.le_refl _) hq h

end OncXdr
