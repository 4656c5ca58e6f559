import OncXdr.Codec.RoundTrip

/-!
# OncXdr.Codec.Framing — `Decode` reads one object from the front of the stream

What a successful decoder call can do to its stream is said once, by `Advances`: it is a chain of
the decoder's primitive reads (a word, a hyper, a fixed opaque, the body of a variable-length
opaque) and of the program's own `UnmarshalXDR` calls (`decodeAt_advances`). Two facts are read
off it.

* Every successful `Decode` takes a prefix of its stream and leaves the rest untouched; when every
  read it made was filled, that prefix is a whole number of four-byte units (`decode_consumes`).
  A word or a hyper is four or eight bytes, `DecodeFixedOpaque` reads its body and then
  `((n + 3) &^ 3) - n` bytes of padding, and `DecodeOpaque` reads `(l + 3) &^ 3` bytes after the
  length word. The Go `int` arithmetic of both paddings is exact modulo four whatever the word
  size (`fixedPad_add_emod`, `andNot3_emod`), so no bound on the lengths is needed.
* `DecodeOpaque` drops the error of the body's `ReadFull`: on a stream that ends inside the body
  it returns what it read, the stream is exhausted, and the call succeeds. It is the only read
  that does so. A codec tree with no variable-length string or opaque layer (`readsWhole`)
  succeeds only with every read filled (`decodeAt_advances_whole`, `Advances.full_eq`).

A program's own `UnmarshalXDR` methods read through the same decoder; the theorems assume they
behave as the primitive reads do.
-/

namespace OncXdr

namespace Input

/-- `out` is what is left of `inp` after reading a prefix of it, a whole number of four-byte
units when every read was filled. -/
def Consumes (inp out : Input) : Prop :=
  ∃ c, inp.rest = c ++ out.rest ∧ (out.full = true → inp.full = true ∧ 4 ∣ c.length)

theorem Consumes.refl (inp : Input) : inp.Consumes inp :=
  ⟨[], rfl, fun h => ⟨h, Nat.dvd_zero 4⟩⟩

theorem Consumes.trans {a b c : Input} (h₁ : a.Consumes b) (h₂ : b.Consumes c) : a.Consumes c := by
  obtain ⟨x, hx, hxf⟩ := h₁
  obtain ⟨y, hy, hyf⟩ := h₂
  refine ⟨x ++ y, by rw [hx, hy, List.append_assoc], fun hc => ?_⟩
  obtain ⟨hb, hy4⟩ := hyf hc
  obtain ⟨ha, hx4⟩ := hxf hb
  exact ⟨ha, by rw [List.length_append]; exact Nat.dvd_add hx4 hy4⟩

/-- A stream that ran out, with nothing promised about what was read. -/
theorem consumes_exhausted (inp : Input) : inp.Consumes ⟨[], false⟩ :=
  ⟨inp.rest, (List.append_nil _).symm, nofun⟩

end Input

/-! ## The primitive reads -/

section Reads

variable {inp out : Input}

theorem readFull_none {n : Nat} {b : List UInt8} (h : readFull n inp = (b, out, none)) :
    inp.rest = b ++ out.rest ∧ out.full = inp.full ∧ b.length = n := by
  unfold readFull at h
  split_ifs at h with hn <;> cases h
  exact ⟨(List.take_append_drop n inp.rest).symm, rfl, List.length_take_of_le hn⟩

/-- `io.ReadFull` of a whole number of units, filled or not. -/
theorem readFull_consumes {n : Nat} (hn : 4 ∣ n) (inp : Input) : inp.Consumes (readFull n inp).2.1 := by
  unfold readFull
  split_ifs with h
  · exact ⟨inp.rest.take n, (List.take_append_drop n inp.rest).symm,
      fun hf => ⟨hf, by rw [List.length_take_of_le h]; exact hn⟩⟩
  all_goals exact Input.consumes_exhausted inp

theorem decodeUnsignedInt_consumes {x : Nat} (h : decodeUnsignedInt inp = .ok (x, out)) :
    inp.Consumes out := by
  unfold decodeUnsignedInt at h
  split at h
  · rename_i heq
    cases h
    simpa [heq] using readFull_consumes (Nat.dvd_refl 4) inp
  · cases h

theorem decodeUnsignedHyper_consumes {x : Nat} (h : decodeUnsignedHyper inp = .ok (x, out)) :
    inp.Consumes out := by
  unfold decodeUnsignedHyper at h
  split at h
  · rename_i heq
    cases h
    simpa [heq] using readFull_consumes (Nat.dvd_of_mod_eq_zero rfl : 4 ∣ 8) inp
  · cases h

theorem decodeInt_eq_ok {x : Int} (h : decodeInt inp = .ok (x, out)) :
    ∃ u, decodeUnsignedInt inp = .ok (u, out) := by
  simp only [decodeInt, bind_eq_ok] at h
  obtain ⟨⟨u, inp'⟩, hu, h⟩ := h
  injection h with h
  injection h with _ h
  exact ⟨u, h ▸ hu⟩

theorem decodeHyper_eq_ok {x : Int} (h : decodeHyper inp = .ok (x, out)) :
    ∃ u, decodeUnsignedHyper inp = .ok (u, out) := by
  simp only [decodeHyper, bind_eq_ok] at h
  obtain ⟨⟨u, inp'⟩, hu, h⟩ := h
  injection h with h
  injection h with _ h
  exact ⟨u, h ▸ hu⟩

theorem decodeBool_eq_ok {b : Bool} (h : decodeBool inp = .ok (b, out)) :
    ∃ u, decodeUnsignedInt inp = .ok (u, out) := by
  simp only [decodeBool, bind_eq_ok] at h
  obtain ⟨⟨u, inp'⟩, hu, h⟩ := h
  split_ifs at h <;> cases h
  all_goals exact ⟨u, hu⟩

theorem decodeUnsignedInt_full {x : Nat} (h : decodeUnsignedInt inp = .ok (x, out)) :
    out.full = inp.full := by
  unfold decodeUnsignedInt at h
  split at h
  · cases h
    exact (readFull_none ‹_›).2.1
  · cases h

theorem decodeUnsignedHyper_full {x : Nat} (h : decodeUnsignedHyper inp = .ok (x, out)) :
    out.full = inp.full := by
  unfold decodeUnsignedHyper at h
  split at h
  · cases h
    exact (readFull_none ‹_›).2.1
  · cases h

/-- Go's `int` keeps residues modulo four: its width is a multiple of four bits. -/
theorem goInt_emod (w : WordSize) (x : Int) : goInt w x % 4 = x % 4 := by
  have h4 : (4 : Int) ∣ ((2 ^ w.bits : Nat) : Int) := by
    cases w <;> exact Int.dvd_of_emod_eq_zero rfl
  unfold goInt
  rw [Int.bmod_def]
  split_ifs
  · exact Int.emod_emod_of_dvd x h4
  · rw [Int.sub_emod, Int.emod_emod_of_dvd x h4, Int.emod_eq_zero_of_dvd h4, Int.sub_zero,
      Int.emod_emod]

theorem andNot3_emod (x : Int) : andNot3 x % 4 = 0 := by
  unfold andNot3; omega

/-- `((n + 3) &^ 3) - n` is `-n` modulo four, whatever the word size. -/
theorem fixedPad_add_emod (w : WordSize) (n : Nat) : (fixedPad w n + n) % 4 = 0 := by
  have h := goInt_emod w (andNot3 (goInt w (n + 3)) - n)
  have h3 := andNot3_emod (goInt w (n + 3))
  unfold fixedPad
  omega

theorem decodeFixedOpaque_consumes {w : WordSize} {n : Nat} {b : List UInt8}
    (h : decodeFixedOpaque w n inp = .ok (b, out)) : inp.Consumes out := by
  have hp := fixedPad_add_emod w n
  unfold decodeFixedOpaque at h
  split at h
  · cases h
  rename_i buf inp₁ hb
  obtain ⟨hr, hf, hl⟩ := readFull_none hb
  dsimp only at h
  split_ifs at h with h₀ h₁
  · -- no padding: the body is whole units
    cases h
    refine ⟨b, hr, fun hf' => ⟨hf ▸ hf', ?_⟩⟩
    rw [hl]
    omega
  · split at h
    · cases h
    rename_i pad out' hpad
    cases h
    obtain ⟨hr', hf', hl'⟩ := readFull_none hpad
    refine ⟨b ++ pad, by rw [hr, hr', List.append_assoc], fun hfo => ⟨hf ▸ hf' ▸ hfo, ?_⟩⟩
    rw [List.length_append, hl, hl']
    omega

theorem decodeOpaque_consumes {w : WordSize} {maxLen : Nat} {b : List UInt8}
    (h : decodeOpaque w maxLen inp = .ok (b, out)) : inp.Consumes out := by
  unfold decodeOpaque at h
  split at h
  · cases h
  rename_i l inp₁ hl
  have h₁ := decodeUnsignedInt_consumes hl
  dsimp only at h
  split_ifs at h
  · cases h
    exact h₁
  · -- the body and its padding, read whether or not the stream held them
    have h4 : 4 ∣ (andNot3 (goInt w (l + 3))).toNat := by
      have := andNot3_emod (goInt w (l + 3))
      omega
    have h₂ := readFull_consumes h4 inp₁
    generalize readFull (andNot3 (goInt w (l + 3))).toNat inp₁ = r at h h₂
    obtain ⟨got, inp', _⟩ := r
    cases h
    exact h₁.trans h₂

theorem decodeFixedOpaque_full {w : WordSize} {n : Nat} {b : List UInt8}
    (h : decodeFixedOpaque w n inp = .ok (b, out)) : out.full = inp.full := by
  unfold decodeFixedOpaque at h
  split at h
  · cases h
  rename_i hb
  dsimp only at h
  split_ifs at h
  · cases h
    exact (readFull_none hb).2.1
  · split at h
    · cases h
    rename_i hpad
    cases h
    exact (readFull_none hpad).2.1.trans (readFull_none hb).2.1

end Reads

/-! ## What a decoder call does to its stream -/

/-- The streams a successful decoder call goes between: a chain of the decoder's primitive reads
and of the program's own `UnmarshalXDR` calls. The body read of `DecodeOpaque`, which goes on
after a short `io.ReadFull`, takes part only if `lenient`. -/
inductive Advances (e : Env) (lenient : Bool) : Input → Input → Prop
  | refl (inp : Input) : Advances e lenient inp inp
  | word {inp mid out : Input} {x : Nat} : decodeUnsignedInt inp = .ok (x, mid) →
      Advances e lenient mid out → Advances e lenient inp out
  | hyper {inp mid out : Input} {x : Nat} : decodeUnsignedHyper inp = .ok (x, mid) →
      Advances e lenient mid out → Advances e lenient inp out
  | fixed {inp mid out : Input} {w : WordSize} {n : Nat} {b : List UInt8} :
      decodeFixedOpaque w n inp = .ok (b, mid) → Advances e lenient mid out →
      Advances e lenient inp out
  | body {inp mid out : Input} {w : WordSize} {maxLen : Nat} {b : List UInt8} : lenient = true →
      decodeOpaque w maxLen inp = .ok (b, mid) → Advances e lenient mid out →
      Advances e lenient inp out
  | user {inp mid out : Input} {t : TypeId} {v y : Value} : e.U.unmarshalXDR t v inp = .ok (y, mid) →
      Advances e lenient mid out → Advances e lenient inp out

namespace Advances

variable {e : Env} {lenient : Bool} {inp mid out : Input}

theorem trans (h₁ : Advances e lenient inp mid) (h₂ : Advances e lenient mid out) :
    Advances e lenient inp out := by
  induction h₁ with
  | refl => exact h₂
  | word h _ ih => exact .word h (ih h₂)
  | hyper h _ ih => exact .hyper h (ih h₂)
  | fixed h _ ih => exact .fixed h (ih h₂)
  | body hl h _ ih => exact .body hl h (ih h₂)
  | user h _ ih => exact .user h (ih h₂)

/-- A call reads a prefix of its stream, of whole units when every read was filled. -/
theorem consumes
    (hu : ∀ t v inp v' out, e.U.unmarshalXDR t v inp = .ok (v', out) → inp.Consumes out)
    (h : Advances e lenient inp out) : inp.Consumes out := by
  induction h with
  | refl => exact .refl _
  | word h _ ih => exact (decodeUnsignedInt_consumes h).trans ih
  | hyper h _ ih => exact (decodeUnsignedHyper_consumes h).trans ih
  | fixed h _ ih => exact (decodeFixedOpaque_consumes h).trans ih
  | body _ h _ ih => exact (decodeOpaque_consumes h).trans ih
  | user h _ ih => exact (hu _ _ _ _ _ h).trans ih

/-- Without the body read of `DecodeOpaque`, a call succeeds only with every read filled. -/
theorem full_eq
    (hk : ∀ t v inp v' out, e.U.unmarshalXDR t v inp = .ok (v', out) → out.full = inp.full)
    (h : Advances e false inp out) : out.full = inp.full := by
  induction h with
  | refl => rfl
  | word h _ ih => exact ih.trans (decodeUnsignedInt_full h)
  | hyper h _ ih => exact ih.trans (decodeUnsignedHyper_full h)
  | fixed h _ ih => exact ih.trans (decodeFixedOpaque_full h)
  | body hl => cases hl
  | user h _ ih => exact ih.trans (hk _ _ _ _ _ h)

end Advances

/-! ## Codec trees without a variable-length body -/

/-- The codec `c` reads its layers whole, its children (`rec`) doing so: it is no
variable-length string or opaque, whose body read may come up short, unless `lenient`. -/
def readsWholeWith (lenient : Bool) (rec : Key → Bool) : Codec → Bool
  | .varStringCodec .. | .opaqueSliceCodec .. => lenient
  | .arrayCodec ek _ | .sliceCodec ek .. | .optCodec ek | .ptrCodec ek => rec ek
  | .mapCodec kk vk .. => rec kk && rec vk
  | .structCodec _ fields => fields.all fun f => rec f.key
  | .unionCodec _ sw bodies .. => rec sw.key && bodies.all fun f => rec f.key
  | _ => true

theorem readsWholeWith_lenient (c : Codec) : readsWholeWith true (fun _ => true) c = true := by
  cases c <;> simp [readsWholeWith]

/-- Every codec in the tree of `k`, within `fuel` nested codecs, reads its layers whole. -/
def readsWhole (e : Env) : Nat → Key → Bool
  | 0, _ => true
  | n + 1, k =>
    match e.codec k with
    | .error _ => true
    | .ok c => readsWholeWith false (readsWhole e n) c

/-! ## The codecs' loops -/

section Loops

variable {e : Env} {lenient : Bool}

/-- A primitive `Decode` succeeds only on a value it may set, with the read's result. -/
theorem setAfter_eq_ok {m : String} {p : Path} {r : Except Fail (Value × Input)} {x : Value × Input}
    (h : setAfter m p r = .ok x) : p.assignPanic m = none ∧ r = .ok x := by
  unfold setAfter at h
  split at h
  · cases h
  · cases h
  · cases h
  · exact ⟨‹_›, h⟩

theorem readAs_eq_ok {α : Type} {f : α → Value} {r : Except XdrError (α × Input)} {v : Value}
    {out : Input} (h : readAs f r = .ok (v, out)) : ∃ a, r = .ok (a, out) ∧ v = f a := by
  unfold readAs at h
  split at h
  · cases h
    exact ⟨_, rfl, rfl⟩
  · cases h

theorem decodeEach_advances {f : Value → Input → Except Fail (Value × Input)}
    (hf : ∀ d inp y out, f d inp = .ok (y, out) → Advances e lenient inp out) :
    ∀ {ds : List Value} {inp out : Input} {ys : List Value},
      decodeEach f ds inp = .ok (ys, out) → Advances e lenient inp out
  | [], _, _, _, h => by cases h; exact .refl _
  | _ :: _, _, _, _, h => by
    simp only [decodeEach, bind_eq_ok] at h
    obtain ⟨⟨y, inp₁⟩, h₁, h⟩ := h
    simp only [bind_eq_ok, pure_eq_ok] at h
    obtain ⟨⟨ys, inp₂⟩, h₂, h⟩ := h
    cases h
    exact (hf _ _ _ _ h₁).trans (decodeEach_advances hf h₂)

theorem decodeFields_advances {f : FieldRec → Value → Input → Except Fail (Value × Input)} :
    ∀ {rs : List FieldRec}, (∀ r ∈ rs, ∀ d inp y out, f r d inp = .ok (y, out) →
      Advances e lenient inp out) →
    ∀ {ds : List Value} {inp out : Input} {ys : List Value},
      decodeFields f rs ds inp = .ok (ys, out) → Advances e lenient inp out
  | [], _, _, _, _, _, h => by cases h; exact .refl _
  | _ :: _, hf, _, _, _, _, h => by
    simp only [decodeFields, bind_eq_ok] at h
    obtain ⟨⟨y, inp₁⟩, h₁, h⟩ := h
    exact (hf _ (List.mem_cons_self _ _) _ _ _ _ h₁).trans
      (decodeFields_advances (fun r hr => hf r (List.mem_cons_of_mem _ hr)) h)

theorem decodeEntries_advances {fk fv : Input → Except Fail (Value × Input)}
    (hk : ∀ inp y out, fk inp = .ok (y, out) → Advances e lenient inp out)
    (hv : ∀ inp y out, fv inp = .ok (y, out) → Advances e lenient inp out) :
    ∀ {n : Nat} {acc : List (Value × Value)} {inp out : Input} {kvs : List (Value × Value)},
      decodeEntries fk fv n acc inp = .ok (kvs, out) → Advances e lenient inp out
  | 0, _, _, _, _, h => by cases h; exact .refl _
  | _ + 1, _, _, _, _, h => by
    simp only [decodeEntries, bind_eq_ok] at h
    obtain ⟨⟨x, inp₁⟩, h₁, h⟩ := h
    simp only [bind_eq_ok] at h
    obtain ⟨⟨y, inp₂⟩, h₂, h⟩ := h
    exact (hk _ _ _ h₁).trans ((hv _ _ _ h₂).trans (decodeEntries_advances hk hv h))

end Loops

/-! ## One codec -/

section Step

variable (e : Env) (lenient : Bool) {P : Key → Bool}
  {rec : Key → Path → Value → Input → Except Fail (Value × Input)}
  (ih : ∀ k, P k = true → ∀ p v inp v' out, rec k p v inp = .ok (v', out) →
    Advances e lenient inp out)
include ih

/-- One codec advances its stream by primitive reads, its children doing so. -/
theorem decodeWith_advances (k : Key) {c : Codec} (hc : readsWholeWith lenient P c = true)
    (p : Path) (v : Value) {inp out : Input} {v' : Value}
    (h : decodeWith e rec k c p v inp = .ok (v', out)) : Advances e lenient inp out := by
  cases c with
  | errorCodec => cases h
  | marshalerCodec =>
    simp only [decodeWith] at h
    split_ifs at h
    split at h
    · cases h
    · rename_i heq
      cases h
      exact .user heq (.refl _)
  | boolCodec =>
    obtain ⟨_, hr, -⟩ := readAs_eq_ok (setAfter_eq_ok h).2
    obtain ⟨_, hw⟩ := decodeBool_eq_ok hr
    exact .word hw (.refl _)
  | intCodec bits =>
    obtain ⟨_, hr, -⟩ := readAs_eq_ok (setAfter_eq_ok h).2
    obtain ⟨_, hw⟩ := decodeInt_eq_ok hr
    exact .word hw (.refl _)
  | uintCodec bits | floatCodec =>
    obtain ⟨_, hr, -⟩ := readAs_eq_ok (setAfter_eq_ok h).2
    exact .word hr (.refl _)
  | hyperCodec =>
    obtain ⟨_, hr, -⟩ := readAs_eq_ok (setAfter_eq_ok h).2
    obtain ⟨_, hw⟩ := decodeHyper_eq_ok hr
    exact .hyper hw (.refl _)
  | uhyperCodec | doubleCodec =>
    obtain ⟨_, hr, -⟩ := readAs_eq_ok (setAfter_eq_ok h).2
    exact .hyper hr (.refl _)
  | complex64Codec =>
    simp only [decodeWith] at h
    split at h
    · cases h
    rename_i h₁
    split at h
    · cases h
    rename_i h₂
    cases (setAfter_eq_ok h).2
    exact .word h₁ (.word h₂ (.refl _))
  | complex128Codec =>
    simp only [decodeWith] at h
    split at h
    · cases h
    rename_i h₁
    split at h
    · cases h
    rename_i h₂
    cases (setAfter_eq_ok h).2
    exact .hyper h₁ (.hyper h₂ (.refl _))
  | fixedStringCodec len =>
    obtain ⟨⟨_, _⟩, hr, h⟩ := map_eq_ok.mp (setAfter_eq_ok h).2
    cases h
    exact .fixed hr (.refl _)
  | varStringCodec maxlen origMax =>
    have h := (setAfter_eq_ok h).2
    split at h
    · cases h
    · cases h
    · rename_i hr
      cases h
      exact .body hc hr (.refl _)
  | opaqueArrayCodec len =>
    cases p with
    | mem =>
      obtain ⟨⟨_, _⟩, hr, h⟩ := map_eq_ok.mp h
      cases h
      exact .fixed hr (.refl _)
    | reflect a r =>
      simp only [decodeWith] at h
      split_ifs at h
      obtain ⟨⟨_, _⟩, hr, h⟩ := map_eq_ok.mp h
      cases h
      exact .fixed hr (.refl _)
  | arrayCodec ek len =>
    obtain ⟨⟨_, _⟩, hr, h⟩ := map_eq_ok.mp h
    cases h
    exact decodeEach_advances (fun _ _ _ _ => ih ek hc _ _ _ _ _) hr
  | opaqueSliceCodec maxlen origMax =>
    cases p with
    | mem =>
      obtain ⟨⟨_, _⟩, hr, h⟩ := map_eq_ok.mp h
      cases h
      exact .body hc hr (.refl _)
    | reflect a r =>
      simp only [decodeWith] at h
      split at h
      · cases h
      split at h
      · cases h
      split_ifs at h
      obtain ⟨⟨_, _⟩, hr, h⟩ := map_eq_ok.mp h
      cases h
      exact .body hc hr (.refl _)
  | sliceCodec ek maxlen origMax =>
    simp only [decodeWith] at h
    split at h
    · cases h
    rename_i l inp₁ hl
    split_ifs at h
    · cases (setAfter_eq_ok h).2
      exact .word hl (.refl _)
    · split at h
      · cases h
      obtain ⟨⟨_, _⟩, hr, h⟩ := map_eq_ok.mp h
      cases h
      exact .word hl (decodeEach_advances (fun _ _ _ _ => ih ek hc _ _ _ _ _) hr)
  | mapCodec kk vk maxlen origMax =>
    obtain ⟨hk, hv⟩ := Bool.and_eq_true _ _ ▸ hc
    simp only [decodeWith] at h
    split at h
    · cases h
    rename_i l inp₁ hl
    split_ifs at h
    split at h
    · cases h
    obtain ⟨⟨_, _⟩, hr, h⟩ := map_eq_ok.mp h
    cases h
    exact .word hl (decodeEntries_advances (fun _ _ _ => ih kk hk _ _ _ _ _)
      (fun _ _ _ => ih vk hv _ _ _ _ _) hr)
  | optCodec ek =>
    cases p with
    | mem =>
      simp only [decodeWith] at h
      split at h
      · cases h
      · rename_i hb
        obtain ⟨_, hw⟩ := decodeBool_eq_ok hb
        exact .word hw (ih ek hc _ _ _ _ _ h)
      · rename_i hb
        cases h
        obtain ⟨_, hw⟩ := decodeBool_eq_ok hb
        exact .word hw (.refl _)
    | reflect a r =>
      simp only [decodeWith] at h
      split at h
      · cases h
      split at h
      · cases h
      · rename_i hb
        obtain ⟨_, hw⟩ := decodeBool_eq_ok hb
        exact .word hw (ih ek hc _ _ _ _ _ h)
      · rename_i hb
        cases h
        obtain ⟨_, hw⟩ := decodeBool_eq_ok hb
        exact .word hw (.refl _)
  | ptrCodec ek =>
    simp only [decodeWith] at h
    split at h
    · cases h
    obtain ⟨⟨_, _⟩, hr, h⟩ := map_eq_ok.mp h
    cases h
    exact ih ek hc _ _ _ _ _ hr
  | structCodec name fields =>
    simp only [decodeWith] at h
    split_ifs at h
    obtain ⟨⟨_, _⟩, hr, h⟩ := map_eq_ok.mp h
    cases h
    exact decodeFields_advances (fun f hf _ _ _ _ hd =>
      ih f.key (List.all_eq_true.mp hc f hf) _ _ _ _ _ (mapError_eq_ok.mp hd)) hr
  | unionCodec name sw bodies cases dflt kind =>
    obtain ⟨hsw, hbodies⟩ := Bool.and_eq_true _ _ ▸ hc
    simp only [decodeWith] at h
    split_ifs at h
    split at h
    · cases h
    rename_i swv inp₁ hs
    split at h
    · cases h
    split at h
    · cases h
    rename_i f hf
    split at h
    · cases h
    rename_i x inp₂ hx
    cases h
    exact (ih _ hsw _ _ _ _ _ hs).trans
      (ih _ (List.all_eq_true.mp hbodies f (List.mem_of_find?_eq_some hf)) _ _ _ _ _ hx)

end Step

/-! ## Every codec tree -/

section Tree

variable (e : Env)

/-- Every successful call advances its stream by primitive reads. -/
theorem decodeAt_advances : ∀ (n : Nat) (k : Key) (p : Path) (v : Value) (inp : Input) (v' : Value)
    (out : Input), decodeAt e n k p v inp = .ok (v', out) → Advances e true inp out
  | 0, _, _, _, _, _, _, h => by cases h
  | n + 1, k, p, v, _, _, _, h => by
    unfold decodeAt at h
    split at h
    · cases h
    · exact decodeWith_advances e true (P := fun _ => true)
        (fun k _ => decodeAt_advances n k) k (readsWholeWith_lenient _) p v h

/-- A successful call on a tree that reads its layers whole advances its stream without the body
read of `DecodeOpaque`. -/
theorem decodeAt_advances_whole : ∀ (n : Nat) (k : Key), readsWhole e n k = true →
    ∀ (p : Path) (v : Value) (inp : Input) (v' : Value) (out : Input),
      decodeAt e n k p v inp = .ok (v', out) → Advances e false inp out
  | 0, _, _, _, _, _, _, _, h => by cases h
  | n + 1, k, hw, p, v, _, _, _, h => by
    unfold decodeAt at h
    split at h
    · cases h
    · rename_i c hc
      rw [readsWhole, hc] at hw
      exact decodeWith_advances e false (fun k hk => decodeAt_advances_whole n k hk) k hw p v h

/-- `Decode` reads a prefix of its stream, and leaves the rest; when every read was filled, the
prefix is a whole number of four-byte units. -/
theorem decode_consumes
    (hu : ∀ t v inp v' out, e.U.unmarshalXDR t v inp = .ok (v', out) → inp.Consumes out)
    {fuel : Nat} {t : TypeId} {x v : Value} {inp out : Input}
    (h : decode e fuel t x inp = .ok (v, out)) :
    ∃ c, inp.rest = c ++ out.rest ∧ (out.full = true → inp.full = true ∧ 4 ∣ c.length) := by
  unfold decode at h
  split at h
  · cases h
  · exact (decodeAt_advances e _ _ _ x _ _ _ h).consumes hu

end Tree

/-- `P{5, []int32{1, -2}}` is read from the front of a stream that holds two more bytes, which
are left. -/
theorem decode_consumes_pair :
    (∀ t v inp v' out, pairProgram.unmarshalXDR t v inp = .ok (v', out) → inp.Consumes out) ∧
      decode ⟨pairProgram, .w64, false⟩ 4 0 (.struct [.int 0, .slice []])
          ⟨[0, 0, 0, 5, 0, 0, 0, 2, 0, 0, 0, 1, 255, 255, 255, 254, 9, 9], true⟩ =
        .ok (.struct [.int 5, .slice [.int 1, .int (-2)]], ⟨[9, 9], true⟩) ∧
      ∃ c, [0, 0, 0, 5, 0, 0, 0, 2, 0, 0, 0, 1, 255, 255, 255, 254, 9, 9] = c ++ [(9 : UInt8), 9] ∧
        (true = true → true = true ∧ 4 ∣ c.length) :=
  have hu : ∀ t v inp v' out, pairProgram.unmarshalXDR t v inp = .ok (v', out) → inp.Consumes out :=
    fun _ _ _ _ _ h => by cases h; exact .refl _
  have h : decode ⟨pairProgram, .w64, false⟩ 4 0 (.struct [.int 0, .slice []])
      ⟨[0, 0, 0, 5, 0, 0, 0, 2, 0, 0, 0, 1, 255, 255, 255, 254, 9, 9], true⟩ =
      .ok (.struct [.int 5, .slice [.int 1, .int (-2)]], ⟨[9, 9], true⟩) := rfl
  ⟨hu, h, decode_consumes _ hu h⟩

end OncXdr
