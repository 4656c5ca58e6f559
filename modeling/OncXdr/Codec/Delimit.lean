import OncXdr.Codec.Framing

/-!
# OncXdr.Codec.Delimit — `Decode` finds the end of what it reads by itself

The decoder never looks past the bytes it reads. Each `io.ReadFull` that is filled takes its bytes
from the front of the stream, and every choice a codec makes (a length against its maximum, the
nil flag of an optional value, the arm of a union) depends only on what was read. So a call whose
reads were all filled reads the same from a stream that goes on after its end, and leaves what
follows (`decode_append`).

A stream cut short inside what `Encode` wrote is therefore never read as a whole: `Decode` fails
on it, or succeeds only after a read came up short, which is the body read whose error
`DecodeOpaque` drops (`decode_strict_prefix`). A codec tree with no variable-length string or
opaque layer makes no such read, so on it a cut-short encoding is an error
(`decode_strict_prefix_fails`).

`Frames f` says this of one reader `f`. It holds of the primitive reads, is kept by the ways the
codecs combine reads (`Frames.readAs`, `Frames.setAfter`, `Frames.map`, `Frames.ite` and the
loops), and so holds of every codec tree, given that the program's own `UnmarshalXDR` methods
read the same way.
-/

namespace OncXdr

namespace Input

/-- `inp` with the bytes `q` after its end. -/
def append (inp : Input) (q : List UInt8) : Input := ⟨inp.rest ++ q, inp.full⟩

end Input

/-- `f` reads the same from a stream that goes on after its end: a call that succeeds with every
read filled started on a stream whose reads were filled, and on the longer stream it gives the
same value and leaves the bytes that follow after what it left. -/
def Frames {ε α : Type} (f : Input → Except ε (α × Input)) : Prop :=
  ∀ ⦃inp : Input⦄ ⦃y : α⦄ ⦃out : Input⦄, f inp = .ok (y, out) → out.full = true →
    inp.full = true ∧ ∀ q, f (inp.append q) = .ok (y, out.append q)

/-! ## The primitive reads -/

section Reads

theorem readFull_append {n : Nat} {inp out : Input} {b : List UInt8}
    (h : readFull n inp = (b, out, none)) (q : List UInt8) :
    readFull n (inp.append q) = (b, out.append q, none) := by
  unfold readFull at h ⊢
  split_ifs at h with hn <;> cases h
  rw [if_pos (by simp only [Input.append, List.length_append]; omega)]
  simp only [Input.append, List.take_append_of_le_length hn, List.drop_append_of_le_length hn]

/-- A read that was not filled leaves a stream that records it. -/
theorem readFull_some {n : Nat} {inp out : Input} {b : List UInt8} {err : XdrError}
    (h : readFull n inp = (b, out, some err)) : out.full = false := by
  unfold readFull at h
  split_ifs at h <;> cases h <;> rfl

theorem decodeUnsignedInt_frames : Frames decodeUnsignedInt := by
  intro inp y out h hf
  unfold decodeUnsignedInt at h
  split at h
  · rename_i heq
    cases h
    exact ⟨(readFull_none heq).2.1 ▸ hf, fun q => by simp only [decodeUnsignedInt, readFull_append heq]⟩
  · cases h

theorem decodeUnsignedHyper_frames : Frames decodeUnsignedHyper := by
  intro inp y out h hf
  unfold decodeUnsignedHyper at h
  split at h
  · rename_i heq
    cases h
    exact ⟨(readFull_none heq).2.1 ▸ hf, fun q => by simp only [decodeUnsignedHyper, readFull_append heq]⟩
  · cases h

theorem decodeInt_frames : Frames decodeInt := by
  intro inp y out h hf
  simp only [decodeInt, bind_eq_ok] at h
  obtain ⟨⟨u, inp'⟩, hu, h⟩ := h
  injection h with h
  injection h with hy ho
  subst hy ho
  obtain ⟨hi, hq⟩ := decodeUnsignedInt_frames hu hf
  exact ⟨hi, fun q => by unfold decodeInt; rw [hq q]; rfl⟩

theorem decodeHyper_frames : Frames decodeHyper := by
  intro inp y out h hf
  simp only [decodeHyper, bind_eq_ok] at h
  obtain ⟨⟨u, inp'⟩, hu, h⟩ := h
  injection h with h
  injection h with hy ho
  subst hy ho
  obtain ⟨hi, hq⟩ := decodeUnsignedHyper_frames hu hf
  exact ⟨hi, fun q => by unfold decodeHyper; rw [hq q]; rfl⟩

theorem decodeBool_frames : Frames decodeBool := by
  intro inp y out h hf
  simp only [decodeBool, bind_eq_ok] at h
  obtain ⟨⟨u, inp'⟩, hu, h⟩ := h
  split_ifs at h <;> cases h
  all_goals
    obtain ⟨hi, hq⟩ := decodeUnsignedInt_frames hu hf
    subst_vars
    exact ⟨hi, fun q => by unfold decodeBool; rw [hq q]; rfl⟩

theorem decodeFixedOpaque_frames (w : WordSize) (n : Nat) : Frames (decodeFixedOpaque w n) := by
  intro inp y out h hf
  unfold decodeFixedOpaque at h
  split at h
  · cases h
  rename_i buf inp₁ hb
  dsimp only at h
  split_ifs at h with h₀ h₁
  · -- no padding
    cases h
    exact ⟨(readFull_none hb).2.1 ▸ hf, fun q => by
      simp only [decodeFixedOpaque, readFull_append hb q, h₀, if_true]⟩
  · split at h
    · cases h
    rename_i pad out' hpad
    cases h
    exact ⟨(readFull_none hb).2.1 ▸ (readFull_none hpad).2.1 ▸ hf, fun q => by
      simp only [decodeFixedOpaque, readFull_append hb q, h₀, h₁, if_false, readFull_append hpad q]⟩

theorem decodeOpaque_frames (w : WordSize) (maxLen : Nat) : Frames (decodeOpaque w maxLen) := by
  intro inp y out h hf
  unfold decodeOpaque at h
  split at h
  · cases h
  rename_i l inp₁ hl
  dsimp only at h
  split_ifs at h with h₀ h₁ h₂
  · -- a zero length
    cases h
    obtain ⟨hi, hq⟩ := decodeUnsignedInt_frames hl hf
    exact ⟨hi, fun q => by simp only [decodeOpaque, hq q, h₀, if_true]⟩
  · -- the body, filled since the stream records no short read
    generalize hr : readFull (andNot3 (goInt w (l + 3))).toNat inp₁ = r at h
    obtain ⟨got, inp', err⟩ := r
    cases h
    cases err with
    | some err => exact absurd hf (by rw [readFull_some hr]; decide)
    | none =>
      obtain ⟨hi, hq⟩ := decodeUnsignedInt_frames hl ((readFull_none hr).2.1 ▸ hf)
      exact ⟨hi, fun q => by
        simp only [decodeOpaque, hq q, h₀, h₁, h₂, if_false, readFull_append hr q]⟩

end Reads

/-! ## How the codecs combine reads -/

section Combinators

variable {ε α β : Type}

theorem Frames.error (x : ε) : Frames fun _ => (.error x : Except ε (α × Input)) :=
  fun _ _ _ h => by cases h

theorem Frames.ite (c : Prop) [Decidable c] {f g : Input → Except ε (α × Input)} (hf : Frames f)
    (hg : Frames g) : Frames fun inp => if c then f inp else g inp := by
  by_cases hc : c
  · simpa only [hc, if_true] using hf
  · simpa only [hc, if_false] using hg

theorem Frames.readAs {f : α → Value} {d : Input → Except XdrError (α × Input)} (hd : Frames d) :
    Frames fun inp => readAs f (d inp) := by
  intro inp y out h hf
  obtain ⟨a, ha, rfl⟩ := readAs_eq_ok h
  obtain ⟨hi, hq⟩ := hd ha hf
  exact ⟨hi, fun q => by dsimp only; rw [hq q]; rfl⟩

theorem Frames.setAfter {m : String} {p : Path} {d : Input → Except Fail (Value × Input)}
    (hd : Frames d) : Frames fun inp => setAfter m p (d inp) := by
  intro inp y out h hf
  obtain ⟨hp, hr⟩ := setAfter_eq_ok h
  obtain ⟨hi, hq⟩ := hd hr hf
  exact ⟨hi, fun q => by dsimp only; rw [hq q, setAfter_ok hp]⟩

theorem Frames.map {g : α → β} {d : Input → Except ε (α × Input)} (hd : Frames d) :
    Frames fun inp => (d inp).map fun x => (g x.1, x.2) := by
  intro inp y out h hf
  obtain ⟨⟨a, out'⟩, ha, hy⟩ := map_eq_ok.mp h
  cases hy
  obtain ⟨hi, hq⟩ := hd ha hf
  exact ⟨hi, fun q => by dsimp only; rw [hq q]; rfl⟩

theorem Frames.mapError {ε' : Type} {g : ε → ε'} {d : Input → Except ε (α × Input)}
    (hd : Frames d) : Frames fun inp => (d inp).mapError g := by
  intro inp y out h hf
  obtain ⟨hi, hq⟩ := hd (mapError_eq_ok.mp h) hf
  exact ⟨hi, fun q => by dsimp only; rw [hq q]; rfl⟩

end Combinators

/-! ## The codecs' loops -/

section Loops

theorem ok_bind {ε α β : Type} (a : α) (f : α → Except ε β) : (Except.ok a >>= f) = f a := rfl

theorem decodeEach_frames {f : Value → Input → Except Fail (Value × Input)} (hf : ∀ d, Frames (f d)) :
    ∀ ds : List Value, Frames (decodeEach f ds)
  | [] => fun _ _ _ h hfull => by cases h; exact ⟨hfull, fun _ => rfl⟩
  | d :: ds => by
    intro inp y out h hfull
    simp only [decodeEach, bind_eq_ok] at h
    obtain ⟨⟨y₁, inp₁⟩, h₁, h⟩ := h
    simp only [bind_eq_ok, pure_eq_ok] at h
    obtain ⟨⟨ys, inp₂⟩, h₂, h⟩ := h
    cases h
    obtain ⟨hi₁, hq₂⟩ := decodeEach_frames hf ds h₂ hfull
    obtain ⟨hi, hq₁⟩ := hf d h₁ hi₁
    exact ⟨hi, fun q => by simp only [decodeEach, hq₁ q, ok_bind, hq₂ q]; rfl⟩

theorem decodeFields_frames {f : FieldRec → Value → Input → Except Fail (Value × Input)}
    (hf : ∀ r d, Frames (f r d)) : ∀ (rs : List FieldRec) (ds : List Value), Frames (decodeFields f rs ds)
  | [], _ => fun _ _ _ h hfull => by cases h; exact ⟨hfull, fun _ => rfl⟩
  | r :: rs, ds => by
    intro inp y out h hfull
    simp only [decodeFields, bind_eq_ok] at h
    obtain ⟨⟨x, inp₁⟩, h₁, h⟩ := h
    obtain ⟨hi₁, hq₂⟩ := decodeFields_frames hf rs _ h hfull
    obtain ⟨hi, hq₁⟩ := hf r _ h₁ hi₁
    exact ⟨hi, fun q => by simp only [decodeFields, hq₁ q, ok_bind]; exact hq₂ q⟩

theorem decodeEntries_frames {fk fv : Input → Except Fail (Value × Input)} (hk : Frames fk)
    (hv : Frames fv) : ∀ (n : Nat) (acc : List (Value × Value)), Frames (decodeEntries fk fv n acc)
  | 0, _ => fun _ _ _ h hfull => by cases h; exact ⟨hfull, fun _ => rfl⟩
  | n + 1, acc => by
    intro inp y out h hfull
    simp only [decodeEntries, bind_eq_ok] at h
    obtain ⟨⟨x, inp₁⟩, h₁, h⟩ := h
    simp only [bind_eq_ok] at h
    obtain ⟨⟨z, inp₂⟩, h₂, h⟩ := h
    obtain ⟨hi₂, hq₃⟩ := decodeEntries_frames hk hv n _ h hfull
    obtain ⟨hi₁, hq₂⟩ := hv h₂ hi₂
    obtain ⟨hi, hq₁⟩ := hk h₁ hi₁
    exact ⟨hi, fun q => by simp only [decodeEntries, hq₁ q, ok_bind, hq₂ q]; exact hq₃ q⟩

end Loops

/-! ## One codec -/

section Step

variable (e : Env) (hx : ∀ t v, Frames (e.U.unmarshalXDR t v))
  {rec : Key → Path → Value → Input → Except Fail (Value × Input)} (ih : ∀ k p v, Frames (rec k p v))
include hx ih

/-- One codec reads the same from a stream that goes on, its children doing so. -/
theorem decodeWith_frames (k : Key) (c : Codec) (p : Path) (v : Value) :
    Frames (decodeWith e rec k c p v) := by
  cases c with
  | errorCodec => exact Frames.error _
  | marshalerCodec =>
    intro inp y out h hf
    simp only [decodeWith] at h
    split_ifs at h with hro
    split at h
    · cases h
    rename_i heq
    cases h
    obtain ⟨hi, hq⟩ := hx _ _ heq hf
    exact ⟨hi, fun q => by simp only [decodeWith, hro, hq q, Bool.false_eq_true, ↓reduceIte]⟩
  | boolCodec => exact decodeBool_frames.readAs.setAfter
  | intCodec bits => exact decodeInt_frames.readAs.setAfter
  | uintCodec bits | floatCodec => exact decodeUnsignedInt_frames.readAs.setAfter
  | hyperCodec => exact decodeHyper_frames.readAs.setAfter
  | uhyperCodec | doubleCodec => exact decodeUnsignedHyper_frames.readAs.setAfter
  | complex64Codec =>
    intro inp y out h hf
    simp only [decodeWith] at h
    split at h
    · cases h
    rename_i re inp₁ h₁
    split at h
    · cases h
    rename_i im inp₂ h₂
    obtain ⟨hp, hr⟩ := setAfter_eq_ok h
    cases hr
    obtain ⟨hi₂, hq₂⟩ := decodeUnsignedInt_frames h₂ hf
    obtain ⟨hi, hq₁⟩ := decodeUnsignedInt_frames h₁ hi₂
    exact ⟨hi, fun q => by simp only [decodeWith, hq₁ q, hq₂ q, setAfter_ok hp]⟩
  | complex128Codec =>
    intro inp y out h hf
    simp only [decodeWith] at h
    split at h
    · cases h
    rename_i re inp₁ h₁
    split at h
    · cases h
    rename_i im inp₂ h₂
    obtain ⟨hp, hr⟩ := setAfter_eq_ok h
    cases hr
    obtain ⟨hi₂, hq₂⟩ := decodeUnsignedHyper_frames h₂ hf
    obtain ⟨hi, hq₁⟩ := decodeUnsignedHyper_frames h₁ hi₂
    exact ⟨hi, fun q => by simp only [decodeWith, hq₁ q, hq₂ q, setAfter_ok hp]⟩
  | fixedStringCodec len =>
    intro inp y out h hf
    simp only [decodeWith, decodeFixedString] at h ⊢
    exact (decodeFixedOpaque_frames e.w len).map.setAfter h hf
  | varStringCodec maxlen origMax =>
    intro inp y out h hf
    obtain ⟨hp, h⟩ := setAfter_eq_ok h
    split at h
    · cases h
    · cases h
    · rename_i s inp' hr
      cases h
      obtain ⟨hi, hq⟩ := decodeOpaque_frames e.w maxlen hr hf
      exact ⟨hi, fun q => by simp only [decodeWith, decodeString, hq q, setAfter_ok hp]⟩
  | opaqueArrayCodec len =>
    cases p with
    | mem =>
      intro inp y out h hf
      simp only [decodeWith] at h ⊢
      exact (decodeFixedOpaque_frames e.w len).map
        (g := fun b => Value.array (b.map (byteValue (e.elemKind k.type)))) h hf
    | reflect a r =>
      intro inp y out h hf
      simp only [decodeWith] at h ⊢
      exact (Frames.ite _ (.error _) (.ite _ (.error _)
        ((decodeFixedOpaque_frames e.w len).map (g := fun b => Value.array (b.map (byteValue .uint8)))))) h hf
  | arrayCodec ek len =>
    intro inp y out h hf
    simp only [decodeWith] at h ⊢
    exact (decodeEach_frames (ih ek p) _).map h hf
  | opaqueSliceCodec maxlen origMax =>
    cases p with
    | mem =>
      intro inp y out h hf
      simp only [decodeWith] at h ⊢
      exact (decodeOpaque_frames e.w maxlen).map
        (g := fun b => Value.slice (b.map (byteValue (e.elemKind k.type)))) h hf
    | reflect a r =>
      intro inp y out h hf
      simp only [decodeWith] at h
      split at h
      · cases h
      split at h
      · cases h
      rename_i hp
      split_ifs at h with hb
      obtain ⟨⟨b, out'⟩, hr, hy⟩ := map_eq_ok.mp h
      cases hy
      obtain ⟨hi, hq⟩ := decodeOpaque_frames e.w maxlen hr hf
      exact ⟨hi, fun q => by simp only [decodeWith, hq q, hp, hb, Bool.false_eq_true, ↓reduceIte]; rfl⟩
  | sliceCodec ek maxlen origMax =>
    intro inp y out h hf
    simp only [decodeWith] at h
    split at h
    · cases h
    rename_i l inp₁ hl
    split_ifs at h with h₀ h₁
    · -- an empty slice: only the length word
      obtain ⟨hp, hr⟩ := setAfter_eq_ok h
      cases hr
      obtain ⟨hi, hq⟩ := decodeUnsignedInt_frames hl hf
      exact ⟨hi, fun q => by simp only [decodeWith, hq q, h₀, if_true, setAfter_ok hp]⟩
    · split at h
      · cases h
      rename_i hp
      obtain ⟨hi₁, hq₁⟩ := (decodeEach_frames (ih ek p.deref) _).map h hf
      obtain ⟨hi, hq⟩ := decodeUnsignedInt_frames hl hi₁
      exact ⟨hi, fun q => by simp only [decodeWith, hq q, h₀, h₁, if_false, hp]; exact hq₁ q⟩
  | mapCodec kk vk maxlen origMax =>
    intro inp y out h hf
    simp only [decodeWith] at h
    split at h
    · cases h
    rename_i l inp₁ hl
    split_ifs at h with h₁
    split at h
    · cases h
    rename_i hp
    obtain ⟨hi₁, hq₁⟩ := (decodeEntries_frames (ih _ _ _) (ih _ _ _) l []).map h hf
    obtain ⟨hi, hq⟩ := decodeUnsignedInt_frames hl hi₁
    exact ⟨hi, fun q => by simp only [decodeWith, hq q, h₁, if_false, hp]; exact hq₁ q⟩
  | optCodec ek =>
    intro inp y out h hf
    cases p with
    | mem =>
      simp only [decodeWith] at h
      split at h
      · cases h
      · -- the value follows its flag
        rename_i inp₁ hb
        obtain ⟨hi₁, hq₁⟩ := ih _ _ _ h hf
        obtain ⟨hi, hq⟩ := decodeBool_frames hb hi₁
        exact ⟨hi, fun q => by simp only [decodeWith, hq q]; exact hq₁ q⟩
      · rename_i inp₁ hb
        cases h
        obtain ⟨hi, hq⟩ := decodeBool_frames hb hf
        exact ⟨hi, fun q => by simp only [decodeWith, hq q]⟩
    | reflect a r =>
      simp only [decodeWith] at h
      split at h
      · cases h
      rename_i hp
      split at h
      · cases h
      · rename_i inp₁ hb
        obtain ⟨hi₁, hq₁⟩ := ih _ _ _ h hf
        obtain ⟨hi, hq⟩ := decodeBool_frames hb hi₁
        exact ⟨hi, fun q => by simp only [decodeWith, hp, hq q]; exact hq₁ q⟩
      · rename_i inp₁ hb
        cases h
        obtain ⟨hi, hq⟩ := decodeBool_frames hb hf
        exact ⟨hi, fun q => by simp only [decodeWith, hp, hq q]⟩
  | ptrCodec ek =>
    intro inp y out h hf
    simp only [decodeWith] at h
    split at h
    · cases h
    rename_i hp
    obtain ⟨hi, hq⟩ := (ih ek (e.ptrPath p) (e.U.zero ek.type)).map (g := fun x => Value.ptr (some x)) h hf
    exact ⟨hi, fun q => by simp only [decodeWith, hp]; exact hq q⟩
  | structCodec name fields =>
    intro inp y out h hf
    simp only [decodeWith] at h ⊢
    exact (Frames.ite _ (.error _) (decodeFields_frames (fun _ _ => (ih _ _ _).mapError) _ _).map) h hf
  | unionCodec name sw bodies cases dflt kind =>
    intro inp y out h hf
    simp only [decodeWith] at h
    split_ifs at h with hs
    split at h
    · cases h
    rename_i swv inp₁ hsw
    split at h
    · cases h
    rename_i i hi
    split at h
    · cases h
    rename_i f hf'
    split at h
    · cases h
    rename_i x inp₂ hx'
    cases h
    obtain ⟨hi₁, hq₁⟩ := ih _ _ _ hx' hf
    obtain ⟨hi₀, hq₀⟩ := ih _ _ _ hsw hi₁
    exact ⟨hi₀, fun q => by
      simp only [decodeWith, hs, if_false, hq₀ q, hi, hf', hq₁ q, Bool.false_eq_true, ↓reduceIte]⟩

end Step

/-! ## Every codec tree -/

section Tree

variable (e : Env) (hx : ∀ t v, Frames (e.U.unmarshalXDR t v))
include hx

theorem decodeAt_frames : ∀ (n : Nat) (k : Key) (p : Path) (v : Value), Frames (decodeAt e n k p v)
  | 0, _, _, _ => fun _ _ _ h => by cases h
  | n + 1, k, p, v => by
    intro inp y out h hf
    unfold decodeAt at h
    split at h
    · cases h
    · rename_i c hc
      obtain ⟨hi, hq⟩ := decodeWith_frames e hx (decodeAt_frames n) k c p v h hf
      exact ⟨hi, fun q => by rw [decodeAt_of_codec e hc]; exact hq q⟩

/-- `Decode` reads the same from a stream that goes on: when every read of a successful call was
filled, the bytes after the end of its stream are left after what it leaves. -/
theorem decode_append {fuel : Nat} {t : TypeId} {x v : Value} {inp out : Input}
    (h : decode e fuel t x inp = .ok (v, out)) (hf : out.full = true) (q : List UInt8) :
    decode e fuel t x ⟨inp.rest ++ q, inp.full⟩ = .ok (v, ⟨out.rest ++ q, out.full⟩) := by
  unfold decode at h ⊢
  split at h
  · cases h
  · exact (decodeAt_frames e hx _ _ _ x h hf).2 q

/-- On a strict prefix of what `Encode` wrote, a `Decode` into a destination it can fill that
succeeds has a read that came up short. -/
theorem decode_prefix_short {fuel : Nat} {t : TypeId} {v x : Value} {bs p q : List UInt8}
    (hv : Conform e fuel (Key.base t) v) (hd : Dest e fuel (Key.base t) x)
    (henc : encode e fuel t v = .ok bs) (hpq : p ++ q = bs) (hq : q ≠ []) {v' : Value}
    {out : Input} (h : decode e fuel t x ⟨p, true⟩ = .ok (v', out)) : out.full = false := by
  unfold encode at henc
  unfold decode at h
  split at henc
  · cases henc
  rename_i hc
  simp only [hc] at h
  -- the whole encoding is read to its end
  obtain ⟨v₁, hdec, -⟩ :=
    roundTrips fuel _ (.reflect false false) _ v x bs [] true (.inr ⟨rfl, nofun⟩) hv hd henc
  cases hf : out.full
  · rfl
  · -- with every read filled, the same call on the whole encoding would stop `q` before its end
    have h' := (decodeAt_frames e hx _ _ _ x h hf).2 q
    rw [show Input.append ⟨p, true⟩ q = ⟨bs ++ [], true⟩ by rw [← hpq, List.append_nil]; rfl,
      hdec] at h'
    injection h' with h'
    injection h' with _ h'
    injection h' with h'
    exact absurd (List.append_eq_nil.mp h'.symm).2 hq

/-- A stream cut short inside what `Encode` wrote is never decoded as a whole: on a strict prefix
`p` of the encoding, `Decode` into a destination it can fill fails, or succeeds only after a read
came up short. -/
theorem decode_strict_prefix {fuel : Nat} {t : TypeId} {v x : Value} {bs p q : List UInt8}
    (hv : Conform e fuel (Key.base t) v) (hd : Dest e fuel (Key.base t) x)
    (henc : encode e fuel t v = .ok bs) (hpq : p ++ q = bs) (hq : q ≠ []) :
    (∃ f, decode e fuel t x ⟨p, true⟩ = .error f) ∨
      ∃ v' rest, decode e fuel t x ⟨p, true⟩ = .ok (v', ⟨rest, false⟩) := by
  rcases hr : decode e fuel t x ⟨p, true⟩ with f | ⟨v', rest, full⟩
  · exact .inl ⟨f, rfl⟩
  · obtain rfl : full = false := decode_prefix_short e hx hv hd henc hpq hq hr
    exact .inr ⟨v', rest, rfl⟩

/-- Without a variable-length string or opaque layer, a stream cut short inside what `Encode`
wrote is an error: on a strict prefix of the encoding, `Decode` into a destination it can fill
fails. -/
theorem decode_strict_prefix_fails
    (hk : ∀ t v inp v' out, e.U.unmarshalXDR t v inp = .ok (v', out) → out.full = inp.full)
    {fuel : Nat} {t : TypeId} {v x : Value} {bs p q : List UInt8}
    (hw : readsWhole e fuel (Key.base t) = true) (hv : Conform e fuel (Key.base t) v)
    (hd : Dest e fuel (Key.base t) x) (henc : encode e fuel t v = .ok bs) (hpq : p ++ q = bs)
    (hq : q ≠ []) : ∃ f, decode e fuel t x ⟨p, true⟩ = .error f := by
  rcases hr : decode e fuel t x ⟨p, true⟩ with f | ⟨v', out⟩
  · exact ⟨f, rfl⟩
  · -- the call would need a short read, and none of the tree's reads goes on after one
    have hshort := decode_prefix_short e hx hv hd henc hpq hq hr
    unfold decode at hr
    split at hr
    · cases hr
    · have hfull := (decodeAt_advances_whole e _ _ hw _ x _ _ _ hr).full_eq hk
      rw [hshort] at hfull
      cases hfull

end Tree

/-- `pairProgram` has no `UnmarshalXDR` of its own. -/
theorem pairProgram_unmarshal_frames : ∀ t v, Frames (pairProgram.unmarshalXDR t v) :=
  fun _ _ _ _ _ h hf => by cases h; exact ⟨hf, fun _ => rfl⟩

/-- `P{5, []int32{1, -2}}` is read alike from its 16 bytes and from a stream that goes on. -/
theorem decode_append_pair :
    (∀ t v, Frames (pairProgram.unmarshalXDR t v)) ∧
      decode ⟨pairProgram, .w64, false⟩ 4 0 (.struct [.int 0, .slice []])
          ⟨[0, 0, 0, 5, 0, 0, 0, 2, 0, 0, 0, 1, 255, 255, 255, 254], true⟩ =
        .ok (.struct [.int 5, .slice [.int 1, .int (-2)]], ⟨[], true⟩) ∧
      decode ⟨pairProgram, .w64, false⟩ 4 0 (.struct [.int 0, .slice []])
          ⟨[0, 0, 0, 5, 0, 0, 0, 2, 0, 0, 0, 1, 255, 255, 255, 254] ++ [9, 9], true⟩ =
        .ok (.struct [.int 5, .slice [.int 1, .int (-2)]], ⟨[] ++ [9, 9], true⟩) :=
  have h : decode ⟨pairProgram, .w64, false⟩ 4 0 (.struct [.int 0, .slice []])
      ⟨[0, 0, 0, 5, 0, 0, 0, 2, 0, 0, 0, 1, 255, 255, 255, 254], true⟩ =
      .ok (.struct [.int 5, .slice [.int 1, .int (-2)]], ⟨[], true⟩) := rfl
  ⟨pairProgram_unmarshal_frames, h, decode_append _ pairProgram_unmarshal_frames h rfl [9, 9]⟩

/-- `P{5, []int32{1, -2}}` cut before its last word is not decoded, in the default build. -/
theorem decode_strict_prefix_pair :
    (∀ t v, Frames (pairProgram.unmarshalXDR t v)) ∧
      ((∃ f, decode ⟨pairProgram, .w64, false⟩ 4 0 (.struct [.int 0, .slice []])
          ⟨[0, 0, 0, 5, 0, 0, 0, 2, 0, 0, 0, 1], true⟩ = .error f) ∨
        ∃ v' rest, decode ⟨pairProgram, .w64, false⟩ 4 0 (.struct [.int 0, .slice []])
          ⟨[0, 0, 0, 5, 0, 0, 0, 2, 0, 0, 0, 1], true⟩ = .ok (v', ⟨rest, false⟩)) :=
  ⟨pairProgram_unmarshal_frames, decode_strict_prefix _ pairProgram_unmarshal_frames
    (pairProgram_conform false) (pairProgram_dest false) rfl
    (show [0, 0, 0, 5, 0, 0, 0, 2, 0, 0, 0, 1] ++ [255, 255, 255, 254] =
      [(0 : UInt8), 0, 0, 5, 0, 0, 0, 2, 0, 0, 0, 1, 255, 255, 255, 254] from rfl)
    (List.cons_ne_nil _ _)⟩

/-- `P{5, []int32{1, -2}}` cut before its last word is an error in either build: `P` has no
variable-length string or opaque layer. -/
theorem decode_strict_prefix_fails_pair :
    (∀ t v, Frames (pairProgram.unmarshalXDR t v)) ∧
      (∀ t v inp v' out, pairProgram.unmarshalXDR t v inp = .ok (v', out) → out.full = inp.full) ∧
      readsWhole ⟨pairProgram, .w64, false⟩ 4 (Key.base 0) = true ∧
      ∃ f, decode ⟨pairProgram, .w64, false⟩ 4 0 (.struct [.int 0, .slice []])
        ⟨[0, 0, 0, 5, 0, 0, 0, 2, 0, 0, 0, 1], true⟩ = .error f :=
  have hk : ∀ t v inp v' out, pairProgram.unmarshalXDR t v inp = .ok (v', out) →
      out.full = inp.full := fun _ _ _ _ _ h => by cases h; rfl
  have hw : readsWhole ⟨pairProgram, .w64, false⟩ 4 (Key.base 0) = true := rfl
  ⟨pairProgram_unmarshal_frames, hk, hw, decode_strict_prefix_fails _ pairProgram_unmarshal_frames hk
    hw (pairProgram_conform false) (pairProgram_dest false) rfl
    (show [0, 0, 0, 5, 0, 0, 0, 2, 0, 0, 0, 1] ++ [255, 255, 255, 254] =
      [(0 : UInt8), 0, 0, 5, 0, 0, 0, 2, 0, 0, 0, 1, 255, 255, 255, 254] from rfl)
    (List.cons_ne_nil _ _)⟩

end OncXdr
