import OncXdr.Codec.Conform
import OncXdr.Wire.Reads
import Mathlib.Data.List.Forall2

/-!
# OncXdr.Codec.RoundTrip — decoding reads back what encoding wrote

In both builds, for every codec tree and every value that conforms to it (`Conform`), decoding
the bytes `Encode` wrote, into a destination `Decode` can fill (`Dest`), and followed by any
further bytes, succeeds; it reads exactly the bytes written, and the value it gives is written
as the same bytes again (`roundTrips`, `decode_encode`). Go's `MapRange` visits a map's entries
in no fixed order: visited in any other order than the one read, the value's maps give a
permutation of those bytes (`Reorder`, `encodeAt_reorder`). The value is the one encoded under the
scalar codecs; elsewhere it may differ only where encoding does not look: skipped fields and
the arms a union did not select keep the destination's values.

The two builds reach a struct's fields differently: the default build decodes them in memory,
`nounsafe` through `reflect.Value.Field`, which can set only exported fields; `Conform` asks
for exported fields in that build, and `Paired.structField` is where the difference ends.

The proof is one step lemma per codec (`roundTrip_*`), each given the round trip of the
codec's children, and an induction on the fuel (`roundTrips`). The loops of the codecs get
their own lemmas: elements (`decodeEach_encodeEach`), struct fields
(`decodeFields_encodeEach`), and map entries (`decodeEntries_encodeEach`), where the keys'
distinct encodings keep `SetMapIndex` from merging two entries.
-/

namespace OncXdr

/-! ## `Except` -/

section ExceptLemmas

variable {ε α β : Type} {x : Except ε α} {b : β}

@[simp] theorem bind_eq_ok {f : α → Except ε β} :
    x >>= f = .ok b ↔ ∃ a, x = .ok a ∧ f a = .ok b := by
  cases x <;> simp [bind, Except.bind]

@[simp] theorem pure_eq_ok {a b : α} : (pure a : Except ε α) = .ok b ↔ a = b :=
  ⟨fun h => by cases h; rfl, fun h => h ▸ rfl⟩

@[simp] theorem mapError_eq_ok {ε' : Type} {f : ε → ε'} {a : α} :
    x.mapError f = .ok a ↔ x = .ok a := by
  cases x <;> simp [Except.mapError]

@[simp] theorem map_eq_ok {f : α → β} : x.map f = .ok b ↔ ∃ a, x = .ok a ∧ f a = b := by
  cases x <;> simp [Except.map]

end ExceptLemmas

/-! ## Paths -/

namespace Paired

variable {pe pd : Path}

theorem toMem (pe : Path) : Paired pe .mem := .inl rfl

theorem entry (ro : Bool) : Paired (.reflect false ro) (.reflect true false) := .inr ⟨rfl, nofun⟩

/-- The decoder's value can be set. -/
theorem assignPanic (h : Paired pe pd) (m : String) : pd.assignPanic m = none := by
  rcases h with rfl | ⟨rfl, -⟩ <;> rfl

theorem addressable (h : Paired pe pd) : pd.addressable = true := by
  rcases h with rfl | ⟨rfl, -⟩ <;> rfl

theorem wrapped_assignPanic (h : Paired pe pd) (m : String) : pd.wrapped.assignPanic m = none := by
  rcases h with rfl | ⟨rfl, -⟩ <;> rfl

/-- Elements of a slice are reached on paired paths. -/
theorem deref (h : Paired pe pd) : Paired pe.deref pd.deref := by
  rcases h with rfl | ⟨rfl, hp⟩
  · exact .inl rfl
  · cases pe with
    | reflect a r => exact .inr ⟨rfl, nofun⟩
    | mem => exact absurd rfl hp

/-- The decoder stores a `float32` as the encoder wrote it: memory copies it, and `reflect`
quiets on the decoder's side only what it quieted on the encoder's. -/
theorem float32Bits (h : Paired pe pd) (b : Nat) :
    pd.float32Bits (pe.float32Bits b) = pe.float32Bits b := by
  rcases h with rfl | ⟨rfl, hpe⟩
  · rfl
  · cases pe with
    | reflect => simp [Path.float32Bits]
    | mem => exact absurd rfl hpe

theorem eq_mem (h : Paired .mem pd) : pd = .mem := by
  rcases h with h | ⟨-, hp⟩
  · exact h
  · exact absurd rfl hp

end Paired

section Paths

variable {e : Env} {pe pd : Path}

/-- A struct's fields are reached on paired paths when the decoder can set them: in memory in
the default build, on `reflect` with `nounsafe`, where the field must be exported. -/
theorem Paired.structField (h : Paired pe pd) {x : Bool} (hx : e.reflectOnly = true → x = true) :
    Paired ((e.structPath pe).field x) ((e.structPath pd).field x) := by
  cases hr : e.reflectOnly
  · rcases h with rfl | ⟨rfl, -⟩ <;> exact .inl (by simp [Env.structPath, hr])
  · obtain rfl := hx hr
    rcases h with rfl | ⟨rfl, hpe⟩
    · exact .inl rfl
    · refine .inr ⟨by simp [Env.structPath, hr, Path.field], ?_⟩
      cases pe with
      | reflect a r => cases a <;> simp [Env.structPath, hr, Path.field]
      | mem => exact absurd rfl hpe

/-- A pointer's target is reached on paired paths. -/
theorem Paired.ptr (h : Paired pe pd) : Paired (e.ptrPath pe) (e.ptrPath pd) := by
  cases hr : e.reflectOnly
  · exact .inl (by cases pd <;> simp [Env.ptrPath, hr])
  · rcases h with rfl | ⟨rfl, hpe⟩
    · exact .inl rfl
    · refine .inr ⟨by simp [Env.ptrPath, hr], ?_⟩
      cases pe with
      | reflect a r => simp [Env.ptrPath, hr]
      | mem => exact absurd rfl hpe

end Paths

/-! ## Loops -/

section Loops

variable (rest : List UInt8) (full : Bool)

theorem getD_set_self {l : List Value} {i : Nat} (h : i < l.length) (x : Value) :
    (l.set i x).getD i default = x := by
  rw [List.getD_eq_getElem?_getD, List.getElem?_set_self h]; rfl

theorem getD_set_ne {l : List Value} {i j : Nat} (h : i ≠ j) (x : Value) :
    (l.set i x).getD j default = l.getD j default := by
  rw [List.getD_eq_getElem?_getD, List.getElem?_set_ne h, ← List.getD_eq_getElem?_getD]

/-- The elements of an array or a slice, decoded into the destinations `ds`. -/
theorem decodeEach_encodeEach {g : Value → Except Fail (List UInt8)}
    {f : Value → Input → Except Fail (Value × Input)} {P D : Value → Prop}
    (h : ∀ x d bs rest full, P x → D d → g x = .ok bs →
      ∃ y, f d ⟨bs ++ rest, full⟩ = .ok (y, ⟨rest, full⟩) ∧ g y = .ok bs) :
    ∀ (xs ds : List Value) (bs : List UInt8), xs.length = ds.length → (∀ x ∈ xs, P x) →
      (∀ d ∈ ds, D d) → encodeEach g xs = .ok bs →
      ∃ ys, decodeEach f ds ⟨bs ++ rest, full⟩ = .ok (ys, ⟨rest, full⟩) ∧
        encodeEach g ys = .ok bs ∧ ys.length = xs.length
  | [], [], _, _, _, _, he => by cases he; exact ⟨[], rfl, rfl, rfl⟩
  | x :: xs, d :: ds, bs, hl, hx, hd, he => by
    simp only [encodeEach_cons, bind_eq_ok, pure_eq_ok] at he
    obtain ⟨a, ha, r, hr, rfl⟩ := he
    obtain ⟨y, hy, hya⟩ := h x d a (r ++ rest) full (hx x (.head _)) (hd d (.head _)) ha
    obtain ⟨ys, hys, hysr, hlen⟩ := decodeEach_encodeEach h xs ds r (by simpa using hl)
      (fun x hm => hx x (.tail _ hm)) (fun d hm => hd d (.tail _ hm)) hr
    refine ⟨y :: ys, ?_, by simp [encodeEach_cons, hya, hysr], by simp [hlen]⟩
    simp [decodeEach, List.append_assoc, hy, hys, bind, Except.bind, pure, Except.pure]

/-- `decodeFields` sets only the fields of its records. -/
theorem decodeFields_getD {f : FieldRec → Value → Input → Except Fail (Value × Input)} :
    ∀ (rs : List FieldRec) (ds ds' : List Value) (inp out : Input) (i : Nat),
      i ∉ rs.map FieldRec.index → decodeFields f rs ds inp = .ok (ds', out) →
      ds'.getD i default = ds.getD i default
  | [], ds, ds', inp, out, i, _, h => by cases h; rfl
  | r :: rs, ds, ds', inp, out, i, hi, h => by
    simp only [List.map_cons, List.mem_cons, not_or] at hi
    simp only [decodeFields, bind_eq_ok] at h
    obtain ⟨⟨y, inp'⟩, -, h'⟩ := h
    rw [decodeFields_getD rs _ ds' inp' out i hi.2 h', getD_set_ne (Ne.symm hi.1)]

/-- The fields of a struct, decoded into the destination's fields `ds`: every record reads
back what it wrote, whatever the records before it set, since no two records share a field. -/
theorem decodeFields_encodeEach {g : FieldRec → Value → Except Fail (List UInt8)}
    {f : FieldRec → Value → Input → Except Fail (Value × Input)} {P D : FieldRec → Value → Prop}
    (h : ∀ r x d bs rest full, P r x → D r d → g r x = .ok bs →
      ∃ y, f r d ⟨bs ++ rest, full⟩ = .ok (y, ⟨rest, full⟩) ∧ g r y = .ok bs) (vs : List Value) :
    ∀ (rs : List FieldRec) (ds : List Value) (bs : List UInt8), (rs.map FieldRec.index).Nodup →
      (∀ r ∈ rs, r.index < ds.length ∧ D r (ds.getD r.index default)) →
      (∀ r ∈ rs, P r (vs.getD r.index default)) →
      encodeEach (fun r => g r (vs.getD r.index default)) rs = .ok bs →
      ∃ ds', decodeFields f rs ds ⟨bs ++ rest, full⟩ = .ok (ds', ⟨rest, full⟩) ∧
        encodeEach (fun r => g r (ds'.getD r.index default)) rs = .ok bs
  | [], ds, bs, _, _, _, he => by cases he; exact ⟨ds, rfl, rfl⟩
  | r :: rs, ds, bs, hn, hd, hp, he => by
    simp only [encodeEach_cons, bind_eq_ok, pure_eq_ok] at he
    obtain ⟨a, ha, b, hb, rfl⟩ := he
    simp only [List.map_cons, List.nodup_cons] at hn
    obtain ⟨hr, hrd⟩ := hd r (.head _)
    obtain ⟨y, hy, hya⟩ := h r _ _ a (b ++ rest) full (hp r (.head _)) hrd ha
    -- the records after `r` see the destination with `r`'s field set, which is not theirs
    have hset : ∀ r' ∈ rs, (ds.set r.index y).getD r'.index default = ds.getD r'.index default :=
      fun r' hm => by
        have hne : r.index ≠ r'.index := fun he => hn.1 (he ▸ List.mem_map_of_mem _ hm)
        exact getD_set_ne hne y
    obtain ⟨ds', hds', hre⟩ := decodeFields_encodeEach h vs rs (ds.set r.index y) b hn.2
      (fun r' hm => ⟨by simpa using (hd r' (.tail _ hm)).1, (hset r' hm).symm ▸ (hd r' (.tail _ hm)).2⟩)
      (fun r' hm => hp r' (.tail _ hm)) hb
    have hyr : ds'.getD r.index default = y := by
      rw [decodeFields_getD rs _ ds' _ _ r.index hn.1 hds', getD_set_self hr]
    refine ⟨ds', ?_, by rw [encodeEach_cons, hyr, hya, hre]; rfl⟩
    simp only [decodeFields, List.append_assoc, hy, bind, Except.bind]
    exact hds'

/-- `SetMapIndex` of a key no entry has adds an entry at the end. -/
theorem mapInsert_of_forall_ne {kvs : List (Value × Value)} {k : Value} (h : ∀ kv ∈ kvs, kv.1 ≠ k)
    (v : Value) : mapInsert kvs k v = kvs ++ [(k, v)] := by
  have : kvs.any (·.1 == k) = false := List.any_eq_false.mpr fun kv hm => by simpa using h kv hm
  simp [mapInsert, this]

/-- Distinctness of encodings sees a value only through its encoding. -/
theorem Distinct.replace {g : Value → Except Fail (List UInt8)} {l₁ l₂ : List Value} {a b : Value}
    (h : Distinct g (l₁ ++ a :: l₂)) (hg : g b = g a) : Distinct g (l₁ ++ b :: l₂) := by
  simp only [Distinct, List.pairwise_append, List.pairwise_cons, List.mem_cons] at h ⊢
  obtain ⟨h₁, ⟨h₂, h₃⟩, h₄⟩ := h
  refine ⟨h₁, ⟨fun y hy => hg ▸ h₂ y hy, h₃⟩, fun x hx y hy => ?_⟩
  rcases hy with rfl | hy
  · exact fun bs hx' => hg ▸ h₄ x hx a (.inl rfl) bs hx'
  · exact h₄ x hx y (.inr hy)

/-- The entries of a map, decoded one key and one value at a time after the entries `acc`
already decoded: no decoded key equals an earlier one, since their encodings differ, so every
entry is added at the end. -/
theorem decodeEntries_encodeEach {gk gv : Value → Except Fail (List UInt8)}
    {fk fv : Input → Except Fail (Value × Input)} {Pk Pv : Value → Prop}
    (hk : ∀ x bs rest full, Pk x → gk x = .ok bs →
      ∃ y, fk ⟨bs ++ rest, full⟩ = .ok (y, ⟨rest, full⟩) ∧ gk y = .ok bs)
    (hv : ∀ x bs rest full, Pv x → gv x = .ok bs →
      ∃ y, fv ⟨bs ++ rest, full⟩ = .ok (y, ⟨rest, full⟩) ∧ gv y = .ok bs) :
    ∀ (kvs acc : List (Value × Value)) (bs : List UInt8), (∀ kv ∈ kvs, Pk kv.1 ∧ Pv kv.2) →
      Distinct gk (acc.map Prod.fst ++ kvs.map Prod.fst) →
      encodeEach (fun kv => do let a ← gk kv.1; let b ← gv kv.2; pure (a ++ b)) kvs = .ok bs →
      ∃ ys, decodeEntries fk fv kvs.length acc ⟨bs ++ rest, full⟩ = .ok (acc ++ ys, ⟨rest, full⟩) ∧
        encodeEach (fun kv => do let a ← gk kv.1; let b ← gv kv.2; pure (a ++ b)) ys = .ok bs ∧
        ys.length = kvs.length
  | [], acc, bs, _, _, he => by cases he; exact ⟨[], by simp [decodeEntries], rfl, rfl⟩
  | (x, z) :: kvs, acc, bs, hp, hd, he => by
    simp only [encodeEach_cons, bind_eq_ok, pure_eq_ok] at he
    obtain ⟨ab, ⟨a, ha, b, hb, rfl⟩, r, hr, rfl⟩ := he
    obtain ⟨hx, hz⟩ := hp (x, z) (.head _)
    obtain ⟨y, hy, hya⟩ := hk x a (b ++ (r ++ rest)) full hx ha
    obtain ⟨z', hz', hzb⟩ := hv z b (r ++ rest) full hz hb
    simp only [List.map_cons] at hd
    -- the decoded key is encoded as `x` was, so it equals no key decoded before it
    have hne : ∀ kv ∈ acc, kv.1 ≠ y := fun kv hm heq => by
      simp only [Distinct, List.pairwise_append] at hd
      exact hd.2.2 kv.1 (List.mem_map_of_mem _ hm) x (.head _) a (heq ▸ hya) ha
    have hd' : Distinct gk ((acc ++ [(y, z')]).map Prod.fst ++ kvs.map Prod.fst) := by
      simpa using hd.replace (hya.trans ha.symm)
    obtain ⟨ys, hys, hre, hlen⟩ := decodeEntries_encodeEach hk hv kvs (acc ++ [(y, z')]) r
      (fun kv hm => hp kv (.tail _ hm)) hd' hr
    refine ⟨(y, z') :: ys, ?_, ?_, by simp [hlen]⟩
    · simp only [List.length_cons, decodeEntries, List.append_assoc, hy, hz', bind, Except.bind,
        mapInsert_of_forall_ne hne]
      simpa using hys
    · rw [encodeEach_cons]; simp only [hya, hzb, hre]; rfl

end Loops

/-! ## One codec -/

/-- The round trip through the codec `c` of key `k`, its children's being given by `enc`,
`dec`, `ok` and `dest`. -/
def StepRoundTrips (e : Env) (enc : Key → Path → Value → Except Fail (List UInt8))
    (dec : Key → Path → Value → Input → Except Fail (Value × Input)) (ok dest : Key → Value → Prop)
    (k : Key) (c : Codec) : Prop :=
  ∀ pe pd v d bs rest full, Paired pe pd → conformWith e ok enc k c v → destWith e dest k c d →
    encodeWith e enc k c pe v = .ok bs →
    ∃ v', decodeWith e dec k c pd d ⟨bs ++ rest, full⟩ = .ok (v', ⟨rest, full⟩) ∧
      encodeWith e enc k c pe v' = .ok bs ∧ v'.isNil = v.isNil ∧
        (c.isScalar = true → v' = c.written pe v)

section Scalars

variable {e : Env} {enc : Key → Path → Value → Except Fail (List UInt8)}
  {dec : Key → Path → Value → Input → Except Fail (Value × Input)} {ok dest : Key → Value → Prop}
  {k : Key}

/-- A codec that writes every value as it is, and whose decoding of what it wrote gives back the
value itself. -/
theorem StepRoundTrips.of_exact {c : Codec} (hc : ∀ p v, c.written p v = v)
    (h : ∀ pe pd v d bs rest full, Paired pe pd → conformWith e ok enc k c v →
      encodeWith e enc k c pe v = .ok bs →
      decodeWith e dec k c pd d ⟨bs ++ rest, full⟩ = .ok (v, ⟨rest, full⟩)) :
    StepRoundTrips e enc dec ok dest k c :=
  fun pe pd v d bs rest full hp hv _ henc =>
    ⟨v, h pe pd v d bs rest full hp hv henc, henc, rfl, fun _ => (hc pe v).symm⟩

theorem roundTrip_bool : StepRoundTrips e enc dec ok dest k .boolCodec :=
  .of_exact (fun _ _ => rfl) fun _ pd _ _ _ rest full hp ⟨b, hv⟩ henc => by
    subst hv; cases henc
    simp only [decodeWith, Value.toBool, decodeBool_encodeBool, readAs, setAfter_ok (hp.assignPanic _)]

theorem roundTrip_int (bits : Nat) : StepRoundTrips e enc dec ok dest k (.intCodec bits) :=
  .of_exact (fun _ _ => rfl) fun _ pd _ _ _ rest full hp ⟨x, hv, hb, hx⟩ henc => by
    subst hv; cases henc
    simp only [decodeWith, Value.toInt, decodeInt_encodeInt, bmod_32_of_bmod hb hx, readAs, hx,
      setAfter_ok (hp.assignPanic _)]

theorem roundTrip_uint (bits : Nat) : StepRoundTrips e enc dec ok dest k (.uintCodec bits) :=
  .of_exact (fun _ _ => rfl) fun _ pd _ _ _ rest full hp ⟨x, hv, hb, hx⟩ henc => by
    subst hv; cases henc
    have h32 : x < 2 ^ 32 := Nat.lt_of_lt_of_le hx (Nat.pow_le_pow_right (by decide) hb)
    simp only [decodeWith, Value.toUint, encodeUnsignedInt, decodeUnsignedInt_be h32, readAs,
      Nat.mod_eq_of_lt hx, setAfter_ok (hp.assignPanic _)]

theorem roundTrip_hyper : StepRoundTrips e enc dec ok dest k .hyperCodec :=
  .of_exact (fun _ _ => rfl) fun _ pd _ _ _ rest full hp ⟨x, hv, hx⟩ henc => by
    subst hv; cases henc
    simp only [decodeWith, Value.toInt, decodeHyper_encodeHyper, hx, readAs,
      setAfter_ok (hp.assignPanic _)]

theorem roundTrip_uhyper : StepRoundTrips e enc dec ok dest k .uhyperCodec :=
  .of_exact (fun _ _ => rfl) fun _ pd _ _ _ rest full hp ⟨x, hv, hx⟩ henc => by
    subst hv; cases henc
    simp only [decodeWith, Value.toUint, encodeUnsignedHyper, decodeUnsignedHyper_be _ _ hx, readAs,
      setAfter_ok (hp.assignPanic _)]

theorem roundTrip_float : StepRoundTrips e enc dec ok dest k .floatCodec := by
  rintro pe pd _ _ _ rest full hp ⟨b, rfl, hb⟩ - henc
  cases henc
  refine ⟨.float (pe.float32Bits b), ?_, by simp [encodeWith, Value.toFloat], rfl, fun _ => rfl⟩
  simp only [decodeWith, Value.toFloat, encodeFloat, encodeUnsignedInt,
    decodeUnsignedInt_be (Path.float32Bits_lt hb pe), readAs, hp.float32Bits,
    setAfter_ok (hp.assignPanic _)]

theorem roundTrip_double : StepRoundTrips e enc dec ok dest k .doubleCodec :=
  .of_exact (fun _ _ => rfl) fun _ pd _ _ _ rest full hp ⟨b, hv, hb⟩ henc => by
    subst hv; cases henc
    simp only [decodeWith, Value.toFloat, encodeDouble, encodeUnsignedHyper,
      decodeUnsignedHyper_be _ _ hb, readAs, setAfter_ok (hp.assignPanic _)]

theorem roundTrip_complex64 : StepRoundTrips e enc dec ok dest k .complex64Codec := by
  rintro pe pd _ _ _ rest full hp ⟨re, im, rfl, hre, him⟩ - henc
  cases henc
  refine ⟨.complex (pe.float32Bits re) (pe.float32Bits im), ?_,
    by simp [encodeWith, Value.toComplex], rfl, fun _ => rfl⟩
  simp only [decodeWith, Value.toComplex, encodeFloat, encodeUnsignedInt, List.append_assoc,
    decodeUnsignedInt_be (Path.float32Bits_lt hre pe), decodeUnsignedInt_be (Path.float32Bits_lt him pe),
    hp.float32Bits, setAfter_ok (hp.assignPanic _)]

theorem roundTrip_complex128 : StepRoundTrips e enc dec ok dest k .complex128Codec :=
  .of_exact (fun _ _ => rfl) fun _ pd _ _ _ rest full hp ⟨re, im, hv, hre, him⟩ henc => by
    subst hv; cases henc
    simp only [decodeWith, Value.toComplex, encodeDouble, encodeUnsignedHyper, List.append_assoc,
      decodeUnsignedHyper_be _ _ hre, decodeUnsignedHyper_be _ _ him, setAfter_ok (hp.assignPanic _)]

theorem roundTrip_fixedString (len : Nat) : StepRoundTrips e enc dec ok dest k (.fixedStringCodec len) :=
  .of_exact (fun _ _ => rfl) fun _ pd _ _ _ rest full hp ⟨s, hv, hw⟩ henc => by
    subst hv
    simp only [encodeWith, Value.toStr] at henc
    split_ifs at henc with hl
    cases henc; subst hl
    simp only [decodeWith, decodeFixedString, encodeFixedString, decodeFixedOpaque_encode _ _ e.w hw]
    exact setAfter_ok (hp.assignPanic _) _

theorem roundTrip_varString (maxlen origMax : Nat) :
    StepRoundTrips e enc dec ok dest k (.varStringCodec maxlen origMax) :=
  .of_exact (fun _ _ => rfl) fun _ pd _ _ _ rest full hp ⟨s, hv, hw⟩ henc => by
    subst hv
    simp only [encodeWith, Value.toStr] at henc
    split_ifs at henc with hl
    simp only [mapError_eq_ok, encodeString] at henc
    simp only [decodeWith, decodeString, decodeOpaque_encode _ _ e.w henc hl hw]
    exact setAfter_ok (hp.assignPanic _) _

end Scalars

/-! ## Opaque layers -/

section Opaque

variable {e : Env} {enc : Key → Path → Value → Except Fail (List UInt8)}
  {dec : Key → Path → Value → Input → Except Fail (Value × Input)} {ok dest : Key → Value → Prop}
  {k : Key}

/-- Bytes of 8-bit integers read back as those integers. -/
theorem map_byteValue_rawByte {kind : Kind} {xs : List Value} (h : ∀ x ∈ xs, x.IsByte kind) :
    (xs.map Value.rawByte).map (byteValue kind) = xs := by
  rw [List.map_map]
  conv_rhs => rw [← List.map_id xs]
  exact List.map_congr_left fun x hx => (h x hx).symm

theorem roundTrip_opaqueArray (len : Nat) :
    StepRoundTrips e enc dec ok dest k (.opaqueArrayCodec len) :=
  .of_exact (fun _ _ => rfl) fun pe pd _ _ bs rest full hp ⟨xs, hv, hlen, hw, _, hbytes⟩ henc => by
    subst hv hlen
    have hread : decodeFixedOpaque e.w xs.length ⟨encodeFixedOpaque (xs.map Value.rawByte) ++ rest, full⟩ =
        .ok (xs.map Value.rawByte, ⟨rest, full⟩) := by
      have hw' : (xs.map Value.rawByte).length + 3 ≤ e.w.maxInt := by simpa using hw
      simpa using decodeFixedOpaque_encode rest full e.w hw'
    cases pe with
    | mem =>
      cases henc
      obtain rfl := hp.eq_mem
      simp [decodeWith, Value.elems, hread, map_byteValue_rawByte hbytes]
    | reflect a r =>
      simp only [encodeWith, Value.elems] at henc
      split_ifs at henc with h₁ h₂
      cases henc
      rw [not_not] at h₂
      rcases hp with rfl | ⟨rfl, -⟩
      · simp [decodeWith, hread, map_byteValue_rawByte hbytes]
      · rw [h₂] at hbytes
        simp [decodeWith, h₂, hread, map_byteValue_rawByte hbytes]

theorem roundTrip_opaqueSlice (maxlen origMax : Nat) :
    StepRoundTrips e enc dec ok dest k (.opaqueSliceCodec maxlen origMax) :=
  .of_exact (fun _ _ => rfl) fun pe pd _ _ bs rest full hp ⟨xs, hv, hw, hass, hbytes⟩ henc => by
    subst hv
    simp only [encodeWith, Value.elems] at henc
    split_ifs at henc with h₁ h₂
    rw [mapError_eq_ok] at henc
    have hread := decodeOpaque_encode rest full e.w henc (by simpa using h₂) (by simpa using hw)
    rcases hp with rfl | ⟨rfl, hpe⟩
    · simp [decodeWith, hread, map_byteValue_rawByte hbytes]
    · -- through `reflect` the encoder only took bytes of kind `uint8`, so `[]byte` itself
      have hk8 : e.elemKind k.type = .uint8 := by
        by_contra hne; exact h₁ ⟨hpe, hne⟩
      have hba : e.bytesAssignable k.type = true := hass.resolve_right (by rw [hk8]; decide)
      rw [hk8] at hbytes
      simp [decodeWith, hread, hba, map_byteValue_rawByte hbytes]

end Opaque

/-! ## Composite codecs -/

section Composite

variable {e : Env} {enc : Key → Path → Value → Except Fail (List UInt8)}
  {dec : Key → Path → Value → Input → Except Fail (Value × Input)} {ok dest : Key → Value → Prop}
  {k : Key} (ih : RoundTrips e enc dec ok dest)
include ih

theorem roundTrip_array (ek : Key) (len : Nat) :
    StepRoundTrips e enc dec ok dest k (.arrayCodec ek len) := by
  rintro pe pd _ _ bs rest full hp ⟨xs, rfl, hlen, hxs⟩ ⟨ds, rfl, hdlen, hds⟩ henc
  obtain ⟨ys, hys, hre, -⟩ := decodeEach_encodeEach rest full
    (fun x d bs rest full hx hd h => (ih ek pe pd x d bs rest full hp hx hd h).imp fun _ hy => ⟨hy.1, hy.2.1⟩)
    xs ds bs (hlen.trans hdlen.symm) hxs hds henc
  exact ⟨.array ys, by simp [decodeWith, Value.elems, hys], hre, rfl, nofun⟩

theorem roundTrip_slice (ek : Key) (maxlen origMax : Nat) :
    StepRoundTrips e enc dec ok dest k (.sliceCodec ek maxlen origMax) := by
  rintro pe pd _ _ bs rest full hp ⟨xs, rfl, hlt, hxs⟩ hd henc
  simp only [encodeWith, Value.elems] at henc
  split_ifs at henc with hmax
  simp only [bind_eq_ok, pure_eq_ok] at henc
  obtain ⟨r, hr, rfl⟩ := henc
  by_cases hz : xs.length = 0
  · obtain rfl := List.eq_nil_of_length_eq_zero hz
    cases hr
    refine ⟨.slice [], ?_, by simp [encodeWith, Value.elems, encodeEach], rfl, nofun⟩
    simp [decodeWith, encodeUnsignedInt, decodeUnsignedInt_be, setAfter_ok (hp.assignPanic _)]
  · obtain ⟨ys, hys, hre, hlen⟩ := decodeEach_encodeEach rest full
      (fun x d bs rest full hx hd h =>
        (ih ek pe.deref pd.deref x d bs rest full hp.deref hx hd h).imp fun _ hy => ⟨hy.1, hy.2.1⟩)
      xs (List.replicate xs.length (e.U.zero ek.type)) r (by simp) hxs
      (fun d hm => (List.eq_of_mem_replicate hm).symm ▸ hd) hr
    refine ⟨.slice ys, ?_, by simp [encodeWith, Value.elems, hlen, hmax, hre], rfl, nofun⟩
    simp [decodeWith, encodeUnsignedInt, List.append_assoc, decodeUnsignedInt_be hlt, hz, hmax,
      hp.assignPanic, hys]

theorem roundTrip_map (kk vk : Key) (maxlen origMax : Nat) :
    StepRoundTrips e enc dec ok dest k (.mapCodec kk vk maxlen origMax) := by
  rintro pe pd _ _ bs rest full hp ⟨kvs, rfl, hlt, hkv, hdist⟩ ⟨hdk, hdv⟩ henc
  simp only [encodeWith, Value.entries] at henc
  split_ifs at henc with hmax
  simp only [bind_eq_ok, pure_eq_ok] at henc
  obtain ⟨r, hr, rfl⟩ := henc
  -- entries are encoded through `MapRange` copies and decoded into fresh settable values
  have hk : ∀ x bs rest full, ok kk x → enc kk (.reflect false pe.wrapped.readOnly) x = .ok bs →
      ∃ y, dec kk (.reflect true false) (e.U.zero kk.type) ⟨bs ++ rest, full⟩ = .ok (y, ⟨rest, full⟩) ∧
        enc kk (.reflect false pe.wrapped.readOnly) y = .ok bs :=
    fun x bs rest full hx h => (ih kk _ _ x _ bs rest full (.entry _) hx hdk h).imp fun _ hy => ⟨hy.1, hy.2.1⟩
  have hv : ∀ x bs rest full, ok vk x → enc vk (.reflect false pe.wrapped.readOnly) x = .ok bs →
      ∃ y, dec vk (.reflect true false) (e.U.zero vk.type) ⟨bs ++ rest, full⟩ = .ok (y, ⟨rest, full⟩) ∧
        enc vk (.reflect false pe.wrapped.readOnly) y = .ok bs :=
    fun x bs rest full hx h => (ih vk _ _ x _ bs rest full (.entry _) hx hdv h).imp fun _ hy => ⟨hy.1, hy.2.1⟩
  obtain ⟨ys, hys, hre, hlen⟩ := decodeEntries_encodeEach rest full hk hv kvs [] r hkv
    (by simpa using hdist pe.wrapped.readOnly) hr
  refine ⟨.map ys, ?_, by simp only [encodeWith, Value.entries, hlen, hmax, ↓reduceIte, hre]; rfl,
    rfl, nofun⟩
  simp [decodeWith, encodeUnsignedInt, List.append_assoc, decodeUnsignedInt_be hlt, hmax,
    hp.wrapped_assignPanic, hys]

theorem roundTrip_opt (ek : Key) : StepRoundTrips e enc dec ok dest k (.optCodec ek) := by
  rintro pe pd v d bs rest full hp hv ⟨hdd, hdz⟩ henc
  simp only [encodeWith] at henc
  rcases hv with ⟨hnil, hz⟩ | ⟨hnil, hv⟩
  · -- nil is written as `false`, and read back as the type's zero value, nil as well
    rw [if_pos hnil] at henc
    cases henc
    refine ⟨e.U.zero k.type, ?_, by simp [encodeWith, hz], by rw [hz, hnil], nofun⟩
    rcases hp with rfl | ⟨rfl, -⟩ <;> simp [decodeWith, decodeBool_encodeBool]
  · rw [if_neg (by simp [hnil])] at henc
    simp only [bind_eq_ok, pure_eq_ok] at henc
    obtain ⟨r, hr, rfl⟩ := henc
    rcases hp with rfl | ⟨rfl, hpe⟩
    · obtain ⟨v', hdec, hre, hn, -⟩ := ih ek pe .mem v d r rest full (.toMem pe) hv hdd hr
      refine ⟨v', ?_, by simp [encodeWith, hn, hnil, hre], hn, nofun⟩
      simp [decodeWith, List.append_assoc, decodeBool_encodeBool, hdec]
    · obtain ⟨v', hdec, hre, hn, -⟩ :=
        ih ek pe (.reflect true false) v _ r rest full (.inr ⟨rfl, hpe⟩) hv hdz hr
      refine ⟨v', ?_, by simp [encodeWith, hn, hnil, hre], hn, nofun⟩
      simp [decodeWith, List.append_assoc, decodeBool_encodeBool, hdec]

theorem roundTrip_ptr (ek : Key) : StepRoundTrips e enc dec ok dest k (.ptrCodec ek) := by
  rintro pe pd _ _ bs rest full hp ⟨x, rfl, hx⟩ hd henc
  simp only [encodeWith, Value.isNil, Value.target, Bool.false_eq_true, if_false] at henc
  obtain ⟨x', hdec, hre, -, -⟩ := ih ek _ _ x _ bs rest full hp.ptr hx hd henc
  refine ⟨.ptr (some x'), ?_, by simpa [encodeWith, Value.isNil, Value.target], rfl, nofun⟩
  simp [decodeWith, hp.assignPanic, hdec]

theorem roundTrip_struct (name : String) (fields : List FieldRec) :
    StepRoundTrips e enc dec ok dest k (.structCodec name fields) := by
  rintro pe pd _ _ bs rest full hp ⟨vs, rfl, hnd, hvs⟩ ⟨ds, rfl, hds⟩ henc
  simp only [encodeWith, Value.fields] at henc
  -- every field is decoded on the path paired with the encoder's
  have h : ∀ (r : FieldRec) x d bs rest full, e.Settable k.type r.index ∧ ok r.key x → dest r.key d →
      (enc r.key ((e.structPath pe).field (e.exported k.type r.index)) x).mapError
        (·.withField name r.name none) = .ok bs →
      ∃ y, (dec r.key ((e.structPath pd).field (e.exported k.type r.index)) d ⟨bs ++ rest, full⟩).mapError
          (·.withField name r.name none) = .ok (y, ⟨rest, full⟩) ∧
        (enc r.key ((e.structPath pe).field (e.exported k.type r.index)) y).mapError
          (·.withField name r.name none) = .ok bs := by
    intro r x d bs rest full ⟨hs, hx⟩ hd h
    simp only [mapError_eq_ok] at h ⊢
    exact (ih r.key _ _ x d bs rest full (hp.structField hs) hx hd h).imp fun _ hy => ⟨hy.1, hy.2.1⟩
  obtain ⟨ds', hdec, hre⟩ := decodeFields_encodeEach rest full
    (f := fun r x inp => (dec r.key ((e.structPath pd).field (e.exported k.type r.index)) x inp).mapError
      (·.withField name r.name none)) h vs fields ds bs hnd hds hvs henc
  refine ⟨.struct ds', ?_, hre, rfl, nofun⟩
  simp only [decodeWith, hp.addressable, Bool.not_true, Bool.false_and, Bool.false_eq_true,
    ↓reduceIte, Value.fields, hdec]
  rfl

theorem roundTrip_union (name : String) (sw : FieldRec) (bodies : List FieldRec)
    (cases : List (Nat × Nat)) (dflt : Option Nat) (kind : SwitchKind) :
    StepRoundTrips e enc dec ok dest k (.unionCodec name sw bodies cases dflt kind) := by
  rintro pe pd _ _ bs rest full hp ⟨vs, rfl, ⟨c, hc, hcs⟩, hss, hsw, harm⟩
    ⟨ds, rfl, hswl, hswd, hbodies⟩ henc
  simp only [encodeWith, Value.fields] at henc
  -- the encoding is the switch, then the arm it selects
  split at henc
  · cases henc
  rename_i a ha
  split at henc
  · cases henc
  rename_i i hi
  split at henc
  · cases henc
  rename_i f hf
  split at henc
  · cases henc
  rename_i b hb
  cases henc
  obtain ⟨hne, hfs, hfv⟩ := harm i f hi hf
  -- the switch codec is scalar, so the switch decodes to a value of the same switch value
  obtain ⟨swv, hsdec, hsre, -, hsex⟩ :=
    ih sw.key _ _ _ _ a (b ++ rest) full (hp.structField hss) hsw hswd ha
  have hsv : switchValue kind swv = switchValue kind (vs.getD sw.index default) := by
    rw [hsex c hc hcs, switchValue_written]
  have hfl := (hbodies f (List.mem_of_find?_eq_some hf)).1
  obtain ⟨x, hxdec, hxre, -, -⟩ := ih f.key _ _ _ _ b rest full (hp.structField hfs) hfv
    (hbodies f (List.mem_of_find?_eq_some hf)).2 hb
  refine ⟨.struct ((ds.set sw.index swv).set f.index x), ?_, ?_, rfl, nofun⟩
  · simp only [decodeWith, hp.addressable, Bool.not_true, Bool.false_and, Bool.false_eq_true,
      ↓reduceIte, Value.fields, List.append_assoc, hsdec, hsv, hi, hf, getD_set_ne (Ne.symm hne),
      hxdec]
  · have hsw' : ((ds.set sw.index swv).set f.index x).getD sw.index default = swv := by
      rw [getD_set_ne hne, getD_set_self hswl]
    have hx' : ((ds.set sw.index swv).set f.index x).getD f.index default = x :=
      getD_set_self (by simpa using hfl) x
    simp only [encodeWith, Value.fields, hsw', hsre, hsv, hi, hf, hx', hxre]

end Composite

/-! ## Map order -/

/-- `v''` is `v` with the entries of its maps visited in another order, as the codec `c` reads
them, `rec` saying it for the codecs below: a map's entries are a permutation of entries related
to `v`'s one by one; the elements of an array or a slice, the recorded fields of a struct, the
arms of a union and the target of a pointer or an optional value are related by their codecs,
a union's switch and whether a pointer is nil are kept, and every other value is the same. -/
def reorderWith (rec : Key → Value → Value → Prop) : Codec → Value → Value → Prop
  | .arrayCodec ek _, v, v'' | .sliceCodec ek .., v, v'' => List.Forall₂ (rec ek) v.elems v''.elems
  | .mapCodec kk vk .., v, v'' =>
    ∃ kvs, List.Forall₂ (fun a b => rec kk a.1 b.1 ∧ rec vk a.2 b.2) v.entries kvs ∧
      kvs.Perm v''.entries
  | .optCodec ek, v, v'' => v''.isNil = v.isNil ∧ (v.isNil = false → rec ek v v'')
  | .ptrCodec ek, v, v'' => v''.isNil = v.isNil ∧ (v.isNil = false → rec ek v.target v''.target)
  | .structCodec _ fields, v, v'' =>
    ∀ f ∈ fields, rec f.key (v.fields.getD f.index default) (v''.fields.getD f.index default)
  | .unionCodec _ sw bodies .., v, v'' =>
    v''.fields.getD sw.index default = v.fields.getD sw.index default ∧
      ∀ f ∈ bodies, rec f.key (v.fields.getD f.index default) (v''.fields.getD f.index default)
  | _, v, v'' => v'' = v

/-- `reorderWith` down the codec tree of `k`, within `n` nested codec calls: the values a
`MapRange` in any order of every map reached makes `Encode` see. -/
def Reorder (e : Env) : Nat → Key → Value → Value → Prop
  | 0, _, v, v'' => v'' = v
  | n + 1, k, v, v'' =>
    match e.codec k with
    | .error _ => v'' = v
    | .ok c => reorderWith (Reorder e n) c v v''

section MapOrder

variable {α β : Type}

/-- A loop over related items, each encoded as a permutation of the other's bytes. -/
theorem encodeEach_forall₂ {f : α → Except Fail (List UInt8)} {g : β → Except Fail (List UInt8)}
    {S : α → β → Prop} (hg : ∀ a b bs, S a b → f a = .ok bs → ∃ bs', g b = .ok bs' ∧ bs'.Perm bs) :
    ∀ {xs : List α} {ys : List β} {bs : List UInt8}, List.Forall₂ S xs ys →
      encodeEach f xs = .ok bs → ∃ bs', encodeEach g ys = .ok bs' ∧ bs'.Perm bs
  | _, _, _, .nil, h => ⟨[], rfl, by cases h; exact .refl _⟩
  | _, _, _, .cons hab hr, h => by
    simp only [encodeEach_cons, bind_eq_ok, pure_eq_ok] at h ⊢
    obtain ⟨a, ha, r, hr', rfl⟩ := h
    obtain ⟨a', ha', hpa⟩ := hg _ _ _ hab ha
    obtain ⟨r', hr'', hpr⟩ := encodeEach_forall₂ hg hr hr'
    exact ⟨_, ⟨a', ha', r', hr'', rfl⟩, hpa.append hpr⟩

/-- A loop over a permutation of the items gives a permutation of the bytes. -/
theorem encodeEach_perm {g : α → Except Fail (List UInt8)} {xs ys : List α} (hp : xs.Perm ys) :
    ∀ {bs : List UInt8}, encodeEach g xs = .ok bs → ∃ bs', encodeEach g ys = .ok bs' ∧ bs'.Perm bs := by
  induction hp with
  | nil => exact fun h => ⟨_, h, .refl _⟩
  | cons x _ ih =>
    intro bs h
    simp only [encodeEach_cons, bind_eq_ok, pure_eq_ok] at h ⊢
    obtain ⟨a, ha, r, hr, rfl⟩ := h
    obtain ⟨r', hr', hp⟩ := ih hr
    exact ⟨_, ⟨a, ha, r', hr', rfl⟩, hp.append_left a⟩
  | swap x y l =>
    intro bs h
    simp only [encodeEach_cons, bind_eq_ok, pure_eq_ok] at h ⊢
    obtain ⟨b, hb, _, ⟨a, ha, r, hr, rfl⟩, rfl⟩ := h
    refine ⟨_, ⟨a, ha, _, ⟨b, hb, r, hr, rfl⟩, rfl⟩, ?_⟩
    -- the two items' bytes change places
    simpa only [← List.append_assoc] using (@List.perm_append_comm _ a b).append_right r
  | trans _ _ ih₁ ih₂ =>
    intro bs h
    obtain ⟨bs₁, h₁, hp₁⟩ := ih₁ h
    obtain ⟨bs₂, h₂, hp₂⟩ := ih₂ h₁
    exact ⟨bs₂, h₂, hp₂.trans hp₁⟩

variable {e : Env} {rec : Key → Path → Value → Except Fail (List UInt8)}
  {R : Key → Value → Value → Prop}
  (ih : ∀ k p v v'' bs, R k v v'' → rec k p v = .ok bs →
    ∃ bs'', rec k p v'' = .ok bs'' ∧ bs''.Perm bs)
include ih

/-- One codec call on a value with its maps visited in another order writes a permutation of
the bytes, when the calls below it do. -/
theorem encodeWith_reorder {k : Key} {c : Codec} {p : Path} {v v'' : Value} {bs : List UInt8}
    (hr : reorderWith R c v v'') (h : encodeWith e rec k c p v = .ok bs) :
    ∃ bs'', encodeWith e rec k c p v'' = .ok bs'' ∧ bs''.Perm bs := by
  cases c with
  | arrayCodec ek _ => exact encodeEach_forall₂ (ih ek p) hr h
  | sliceCodec ek maxlen origMax =>
    simp only [encodeWith, hr.length_eq] at h ⊢
    split_ifs at h ⊢
    simp only [bind_eq_ok, pure_eq_ok] at h ⊢
    obtain ⟨r, hr', rfl⟩ := h
    obtain ⟨r'', hr'', hp⟩ := encodeEach_forall₂ (ih ek p.deref) hr hr'
    exact ⟨_, ⟨r'', hr'', rfl⟩, hp.append_left _⟩
  | mapCodec kk vk maxlen origMax =>
    obtain ⟨kvs, hkvs, hperm⟩ := hr
    have hlen : v''.entries.length = v.entries.length := hperm.length_eq.symm.trans hkvs.length_eq.symm
    simp only [encodeWith, hlen] at h ⊢
    split_ifs at h ⊢
    simp only [bind_eq_ok, pure_eq_ok] at h ⊢
    obtain ⟨r, hr', rfl⟩ := h
    -- each entry is written as its key and value, each by its codec
    obtain ⟨r₁, hr₁, hp₁⟩ := encodeEach_forall₂ (g := fun kv => do
        let a ← rec kk (.reflect false p.wrapped.readOnly) kv.1
        let b ← rec vk (.reflect false p.wrapped.readOnly) kv.2
        pure (a ++ b)) (fun a b bs ⟨hk, hv⟩ h => by
      simp only [bind_eq_ok, pure_eq_ok] at h
      obtain ⟨x, hx, y, hy, rfl⟩ := h
      obtain ⟨x', hx', hpx⟩ := ih _ _ _ _ _ hk hx
      obtain ⟨y', hy', hpy⟩ := ih _ _ _ _ _ hv hy
      refine ⟨x' ++ y', ?_, hpx.append hpy⟩
      dsimp only
      rw [hx', hy']
      rfl) hkvs hr'
    obtain ⟨r₂, hr₂, hp₂⟩ := encodeEach_perm hperm hr₁
    exact ⟨_, ⟨r₂, hr₂, rfl⟩, (hp₂.trans hp₁).append_left _⟩
  | optCodec ek =>
    obtain ⟨hn, hr⟩ := hr
    simp only [encodeWith, hn] at h ⊢
    cases hv : v.isNil
    · simp only [hv, Bool.false_eq_true, if_false, bind_eq_ok, pure_eq_ok] at h ⊢
      obtain ⟨r, hr', rfl⟩ := h
      obtain ⟨r'', hr'', hp⟩ := ih _ _ _ _ _ (hr hv) hr'
      exact ⟨_, ⟨r'', hr'', rfl⟩, hp.append_left _⟩
    · simp only [hv, if_true] at h ⊢
      exact ⟨_, rfl, by cases h; exact .refl _⟩
  | ptrCodec ek =>
    obtain ⟨hn, hr⟩ := hr
    simp only [encodeWith, hn] at h ⊢
    cases hv : v.isNil
    · simp only [hv, Bool.false_eq_true, if_false] at h ⊢
      exact ih _ _ _ _ _ (hr hv) h
    · simp only [hv, if_true] at h
      cases h
  | structCodec name fields =>
    exact encodeEach_forall₂ (S := fun f f' => f' = f ∧ R f.key (v.fields.getD f.index default)
        (v''.fields.getD f.index default)) (fun f f' bs ⟨hf, hR⟩ h => by
      subst hf
      rw [mapError_eq_ok] at h
      obtain ⟨bs'', h'', hp⟩ := ih _ _ _ _ _ hR h
      exact ⟨bs'', mapError_eq_ok.mpr h'', hp⟩) (List.forall₂_same.mpr fun f hf => ⟨rfl, hr f hf⟩) h
  | unionCodec name sw bodies cases dflt kind =>
    obtain ⟨hsw, hb⟩ := hr
    simp only [encodeWith, hsw] at h ⊢
    split at h
    · cases h
    rename_i a ha
    split at h
    · cases h
    split at h
    · cases h
    rename_i f hf
    split at h
    · cases h
    rename_i b hb'
    cases h
    obtain ⟨b'', hb'', hp⟩ := ih _ _ _ _ _ (hb f (List.mem_of_find?_eq_some hf)) hb'
    simp only [hb'']
    exact ⟨_, rfl, hp.append_left a⟩
  | _ => cases hr; exact ⟨bs, h, .refl _⟩

end MapOrder

/-- Down a whole codec tree, a value whose maps are visited in another order is written as a
permutation of the bytes. -/
theorem encodeAt_reorder {e : Env} : ∀ (n : Nat) (k : Key) (p : Path) (v v'' : Value) (bs : List UInt8),
    Reorder e n k v v'' → encodeAt e n k p v = .ok bs →
      ∃ bs'', encodeAt e n k p v'' = .ok bs'' ∧ bs''.Perm bs
  | 0, _, _, _, _, _, _, h => by cases h
  | n + 1, k, p, v, v'', bs, hr, h => by
    cases hc : e.codec k with
    | error => simp only [encodeAt_succ, hc] at h; cases h
    | ok c =>
      simp only [Reorder, hc] at hr
      rw [encodeAt_of_codec e hc] at h ⊢
      exact encodeWith_reorder (encodeAt_reorder n) hr h

/-! ## Every codec tree -/

section Main

variable {e : Env}

/-- The round trip through any one codec, its children's being given. -/
theorem stepRoundTrips {enc : Key → Path → Value → Except Fail (List UInt8)}
    {dec : Key → Path → Value → Input → Except Fail (Value × Input)} {ok dest : Key → Value → Prop}
    (ih : RoundTrips e enc dec ok dest) (k : Key) : ∀ c, StepRoundTrips e enc dec ok dest k c
  | .errorCodec _ | .marshalerCodec => fun _ _ _ _ _ _ _ _ hv => hv.elim
  | .boolCodec => roundTrip_bool
  | .intCodec bits => roundTrip_int bits
  | .uintCodec bits => roundTrip_uint bits
  | .hyperCodec => roundTrip_hyper
  | .uhyperCodec => roundTrip_uhyper
  | .floatCodec => roundTrip_float
  | .doubleCodec => roundTrip_double
  | .complex64Codec => roundTrip_complex64
  | .complex128Codec => roundTrip_complex128
  | .fixedStringCodec len => roundTrip_fixedString len
  | .varStringCodec maxlen origMax => roundTrip_varString maxlen origMax
  | .opaqueArrayCodec len => roundTrip_opaqueArray len
  | .arrayCodec ek len => roundTrip_array ih ek len
  | .opaqueSliceCodec maxlen origMax => roundTrip_opaqueSlice maxlen origMax
  | .sliceCodec ek maxlen origMax => roundTrip_slice ih ek maxlen origMax
  | .mapCodec kk vk maxlen origMax => roundTrip_map ih kk vk maxlen origMax
  | .optCodec ek => roundTrip_opt ih ek
  | .ptrCodec ek => roundTrip_ptr ih ek
  | .structCodec name fields => roundTrip_struct ih name fields
  | .unionCodec name sw bodies cases dflt kind => roundTrip_union ih name sw bodies cases dflt kind

/-- The round trip through every codec tree within the fuel, by induction on the fuel: each
level is the step of its codec, over the round trip of the level below. -/
theorem roundTrips : ∀ n, RoundTrips e (encodeAt e n) (decodeAt e n) (Conform e n) (Dest e n)
  | 0 => fun _ _ _ _ _ _ _ _ _ hv => hv.elim
  | n + 1 => fun k pe pd v d bs rest full hp hv hd henc => by
    cases hc : e.codec k with
    | error m => simp [Conform, hc] at hv
    | ok c =>
      rw [conform_of_codec e hc] at hv
      rw [dest_of_codec e hc] at hd
      rw [encodeAt_of_codec e hc] at henc
      obtain ⟨v', hdec, hre, hn, hs⟩ :=
        stepRoundTrips (roundTrips n) k c pe pd v d bs rest full hp hv hd henc
      refine ⟨v', by rw [decodeAt_of_codec e hc]; exact hdec, by rw [encodeAt_of_codec e hc]; exact hre,
        hn, fun c' hc' => ?_⟩
      cases hc'
      exact hs

/-- `Decode` into a destination it can fill reads back exactly what `Encode` wrote, whatever
follows it. What it decodes is encoded as the same bytes when `MapRange` visits its maps'
entries in the order they were read, and as a permutation of those bytes in any other order. -/
theorem decode_encode {fuel : Nat} {t : TypeId} {v x : Value} {bs : List UInt8}
    (hv : Conform e fuel (Key.base t) v) (hx : Dest e fuel (Key.base t) x)
    (henc : encode e fuel t v = .ok bs) (rest : List UInt8) (full : Bool) :
    ∃ v', decode e fuel t x ⟨bs ++ rest, full⟩ = .ok (v', ⟨rest, full⟩) ∧
      encode e fuel t v' = .ok bs ∧
      ∀ v'', Reorder e fuel (Key.base t) v' v'' →
        ∃ bs'', encode e fuel t v'' = .ok bs'' ∧ bs''.Perm bs := by
  unfold encode at henc
  split at henc
  · cases henc
  · rename_i hc
    obtain ⟨v', hdec, hre, -⟩ :=
      roundTrips fuel _ (.reflect false false) _ v x bs rest full (.inr ⟨rfl, nofun⟩) hv hx henc
    refine ⟨v', by simp only [decode, hc, hdec], by simp only [encode, hc, hre], fun v'' hr => ?_⟩
    obtain ⟨bs'', h'', hp⟩ := encodeAt_reorder _ _ _ _ _ _ hr hre
    exact ⟨bs'', by simp only [encode, hc, h''], hp⟩

end Main

/-- A program with `type P struct { A int32; B []int32 }`: `0` is `P`, `1` is `int32`, `2` is
`[]int32`. -/
def pairProgram : Universe where
  info
    | 0 => ⟨.struct [⟨"A", 1, true, []⟩, ⟨"B", 2, true, []⟩], "P", false, .none⟩
    | 1 => ⟨.scalar .int32, "int32", true, .none⟩
    | 2 => ⟨.slice 1, "", false, .none⟩
    | _ => TypeInfo.invalid
  zero
    | 0 => .struct [.int 0, .slice []]
    | 1 => .int 0
    | 2 => .slice []
    | _ => .ref true
  zero_eq t := by rcases t with _ | _ | _ | t <;> rfl
  marshalXDR _ _ := .ok []
  unmarshalXDR _ v inp := .ok (v, inp)

/-- The codecs of `P` and of its fields' types, the same in both builds. -/
theorem pairProgram_codecs (r : Bool) :
    Env.codec ⟨pairProgram, .w64, r⟩ (Key.base 0) =
        .ok (.structCodec "P" [⟨0, "A", ⟨1, []⟩⟩, ⟨1, "B", ⟨2, []⟩⟩]) ∧
      Env.codec ⟨pairProgram, .w64, r⟩ ⟨1, []⟩ = .ok (.intCodec 32) ∧
      Env.codec ⟨pairProgram, .w64, r⟩ ⟨2, []⟩ = .ok (.sliceCodec ⟨1, []⟩ 4294967295 4294967295) := by
  cases r <;> exact ⟨rfl, rfl, rfl⟩

theorem pairProgram_conform_int (r : Bool) (n : Nat) {x : Int} (hx : x.bmod (2 ^ 32) = x) :
    Conform ⟨pairProgram, .w64, r⟩ (n + 1) ⟨1, []⟩ (.int x) := by
  rw [conform_of_codec _ (pairProgram_codecs r).2.1]
  exact ⟨x, rfl, le_rfl, hx⟩

/-- `P{5, []int32{1, -2}}` conforms to `P`'s codec tree in both builds: both fields of `P` are
exported. -/
theorem pairProgram_conform (r : Bool) :
    Conform ⟨pairProgram, .w64, r⟩ 4 (Key.base 0) (.struct [.int 5, .slice [.int 1, .int (-2)]]) := by
  rw [conform_of_codec _ (pairProgram_codecs r).1]
  refine ⟨_, rfl, by decide, ?_⟩
  simp only [List.forall_mem_cons, List.not_mem_nil, false_imp_iff, implies_true, and_true]
  refine ⟨⟨fun _ => rfl, pairProgram_conform_int r 2 (by decide)⟩, fun _ => rfl, ?_⟩
  show Conform _ (2 + 1) ⟨2, []⟩ (.slice [.int 1, .int (-2)])
  rw [conform_of_codec _ (pairProgram_codecs r).2.2]
  refine ⟨_, rfl, by decide, ?_⟩
  simp only [List.forall_mem_cons, List.not_mem_nil, false_imp_iff, implies_true, and_true]
  exact ⟨pairProgram_conform_int r 1 (by decide), pairProgram_conform_int r 1 (by decide)⟩

/-- A zero `P` is a destination `Decode` can fill. -/
theorem pairProgram_dest (r : Bool) :
    Dest ⟨pairProgram, .w64, r⟩ 4 (Key.base 0) (.struct [.int 0, .slice []]) := by
  rw [dest_of_codec _ (pairProgram_codecs r).1]
  refine ⟨_, rfl, ?_⟩
  simp only [List.forall_mem_cons, List.not_mem_nil, false_imp_iff, implies_true, and_true]
  refine ⟨⟨by decide, ?_⟩, ⟨by decide, ?_⟩⟩
  · show Dest _ (2 + 1) ⟨1, []⟩ (.int 0)
    rw [dest_of_codec _ (pairProgram_codecs r).2.1]
    trivial
  · show Dest _ (2 + 1) ⟨2, []⟩ (.slice [])
    rw [dest_of_codec _ (pairProgram_codecs r).2.2, destWith, show (2 : Nat) = 1 + 1 from rfl,
      dest_of_codec _ (pairProgram_codecs r).2.1]
    trivial

/-- `P{5, []int32{1, -2}}`, encoded as 16 bytes, is decoded back into a zero `P`, in both
builds. -/
theorem decode_encode_pair :
    (∃ v', decode ⟨pairProgram, .w64, false⟩ 4 0 (.struct [.int 0, .slice []])
        ⟨[0, 0, 0, 5, 0, 0, 0, 2, 0, 0, 0, 1, 255, 255, 255, 254] ++ [], true⟩ = .ok (v', ⟨[], true⟩) ∧
      encode ⟨pairProgram, .w64, false⟩ 4 0 v' =
        .ok [0, 0, 0, 5, 0, 0, 0, 2, 0, 0, 0, 1, 255, 255, 255, 254]) ∧
    (∃ v', decode ⟨pairProgram, .w64, true⟩ 4 0 (.struct [.int 0, .slice []])
        ⟨[0, 0, 0, 5, 0, 0, 0, 2, 0, 0, 0, 1, 255, 255, 255, 254] ++ [], true⟩ = .ok (v', ⟨[], true⟩) ∧
      encode ⟨pairProgram, .w64, true⟩ 4 0 v' =
        .ok [0, 0, 0, 5, 0, 0, 0, 2, 0, 0, 0, 1, 255, 255, 255, 254]) :=
  ⟨(decode_encode (pairProgram_conform false) (pairProgram_dest false) rfl [] true).imp
      fun _ h => ⟨h.1, h.2.1⟩,
    (decode_encode (pairProgram_conform true) (pairProgram_dest true) rfl [] true).imp
      fun _ h => ⟨h.1, h.2.1⟩⟩

end OncXdr
