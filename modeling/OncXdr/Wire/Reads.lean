import OncXdr.Wire.Stream

/-!
# OncXdr.Wire.Reads — the decoder's reads on a stream that holds enough, or ends early

`io.ReadFull` on a stream with enough bytes takes them; on a shorter one it takes what is
there, reports `EOF` or `ErrUnexpectedEOF`, and leaves the stream empty. Every read of the
decoder passes that error on, except the body read of `DecodeOpaque`: on a stream that ends
inside the body it returns the bytes that were there and zeros for the rest, as a success
(`decodeOpaque_truncated`).

Go's `int` arithmetic (`goInt`) is the identity on values up to `maxInt`, which is what makes
the padded length `(l + 3) &^ 3` the round-up of `l` to four bytes when `l + 3 ≤ maxInt`.
-/

namespace OncXdr

/-! ## `int` arithmetic below `maxInt` -/

/-- Go's `int` holds every value from `0` to `maxInt`. -/
theorem goInt_of_le (w : WordSize) {x : Int} (h₀ : 0 ≤ x) (h : x ≤ w.maxInt) : goInt w x = x := by
  unfold goInt
  cases w <;> simp only [WordSize.maxInt, WordSize.bits] at h ⊢ <;>
    rw [Int.bmod_def, Int.emod_eq_of_lt h₀ (by omega), if_pos (by omega)]

/-- `(l + 3) &^ 3` is `l` rounded up to a multiple of four. -/
theorem andNot3_add_three (l : Nat) : andNot3 ((l : Int) + 3) = ((l + padLen l : Nat) : Int) := by
  unfold andNot3 padLen
  omega

/-! ## `io.ReadFull` -/

theorem readFull_of_le {n : Nat} {inp : Input} (h : n ≤ inp.rest.length) :
    readFull n inp = (inp.rest.take n, ⟨inp.rest.drop n, inp.full⟩, none) := by
  simp [readFull, h]

theorem readFull_of_lt {n : Nat} {inp : Input} (h : inp.rest.length < n) :
    readFull n inp =
      (inp.rest, ⟨[], false⟩, some (if inp.rest.isEmpty then .eof else .unexpectedEOF)) := by
  simp [readFull, Nat.not_le.mpr h]

/-- A word read from a stream that starts with its four bytes. -/
theorem decodeUnsignedInt_be {u : Nat} (hu : u < 2 ^ 32) (rest : List UInt8) (full : Bool) :
    decodeUnsignedInt ⟨be 4 u ++ rest, full⟩ = .ok (u, ⟨rest, full⟩) := by
  have h4 : (be 4 u ++ rest).take 4 = be 4 u := List.take_left' (length_be 4 u)
  have hd : (be 4 u ++ rest).drop 4 = rest := List.drop_left' (length_be 4 u)
  have hr : readFull 4 ⟨be 4 u ++ rest, full⟩ = (be 4 u, ⟨rest, full⟩, none) := by
    rw [readFull_of_le (by simp)]; simp only [h4, hd]
  simp only [decodeUnsignedInt, hr, fromBE_be, Nat.mod_eq_of_lt (show u < 256 ^ 4 by simpa using hu)]

/-- A word read from a stream with fewer than four bytes is an error. -/
theorem decodeUnsignedInt_short {inp : Input} (h : inp.rest.length < 4) :
    ∃ err, decodeUnsignedInt inp = .error err := by
  simp [decodeUnsignedInt, readFull_of_lt h]

/-! ## `DecodeOpaque` on a stream that ends inside the body -/

/-- `DecodeOpaque(maxLen)` on a stream holding a length word `l` (within `maxLen`, small enough
for the padding not to overflow `int`) followed by fewer bytes than the padded body: the body
read fails, its error is dropped, and the call succeeds with the bytes that were there and
zeros for the rest. -/
theorem decodeOpaque_truncated (w : WordSize) {maxLen l : Nat} (rest : List UInt8) (full : Bool)
    (hl : 0 < l) (hmax : l ≤ maxLen) (hw : l + 3 ≤ w.maxInt) (hu : l < 2 ^ 32)
    (hshort : rest.length < l + padLen l) :
    decodeOpaque w maxLen ⟨be 4 l ++ rest, full⟩ =
      .ok ((rest ++ List.replicate (l + padLen l) 0).take l, ⟨[], false⟩) := by
  have hpad : andNot3 (goInt w ((l : Int) + 3)) = ((l + padLen l : Nat) : Int) := by
    rw [goInt_of_le w (by omega) (by exact_mod_cast hw), andNot3_add_three]
  simp only [decodeOpaque, decodeUnsignedInt_be hu, Nat.pos_iff_ne_zero.mp hl, if_false,
    Nat.not_lt.mpr hmax, hpad, Int.toNat_ofNat]
  rw [if_neg (by omega), readFull_of_lt hshort]

/-! ## Fixed opaques -/

/-- `(n + 3) &^ 3 - n` in Go's `int` is the padding of `n` bytes when `n + 3 ≤ maxInt`. -/
theorem fixedPad_eq (w : WordSize) {n : Nat} (hw : n + 3 ≤ w.maxInt) :
    fixedPad w n = (padLen n : Int) := by
  have h₁ : goInt w ((n : Int) + 3) = (n : Int) + 3 := goInt_of_le w (by omega) (by exact_mod_cast hw)
  have h₂ : andNot3 ((n : Int) + 3) - n = (padLen n : Int) := by rw [andNot3_add_three]; omega
  unfold fixedPad
  rw [h₁, h₂, goInt_of_le w (by omega) (by have := padLen_lt n; omega)]

/-- `DecodeFixedOpaque` of `n` bytes on a stream holding them and their padding. -/
theorem decodeFixedOpaque_ok (w : WordSize) {n : Nat} (hw : n + 3 ≤ w.maxInt) {body : List UInt8}
    (hb : body.length = n) (padding rest : List UInt8) (hp : padding.length = padLen n)
    (full : Bool) :
    decodeFixedOpaque w n ⟨body ++ padding ++ rest, full⟩ = .ok (body, ⟨rest, full⟩) := by
  have h₁ : readFull n ⟨body ++ padding ++ rest, full⟩ = (body, ⟨padding ++ rest, full⟩, none) := by
    rw [readFull_of_le (by simp [hb]), List.append_assoc, List.take_left' hb, List.drop_left' hb]
  have h₂ : readFull (padLen n) ⟨padding ++ rest, full⟩ = (padding, ⟨rest, full⟩, none) := by
    rw [readFull_of_le (by simp [hp]), List.take_left' hp, List.drop_left' hp]
  have hlt := padLen_lt n
  simp only [decodeFixedOpaque, h₁, fixedPad_eq w hw]
  by_cases hz : padLen n = 0
  · obtain rfl : padding = [] := List.eq_nil_of_length_eq_zero (hp.trans hz)
    simp [hz]
  · rw [if_neg (by exact_mod_cast hz), if_neg (by omega), Int.toNat_ofNat, h₂]

/-! ## Reading back what the encoder wrote

Each `Decode…` of the decoder, on a stream that starts with what the matching `Encode…` wrote,
gives the value back (in its type's range) and leaves the rest of the stream as it was. -/

section ReadBack

variable (rest : List UInt8) (full : Bool)

/-- `Int.bmod` is the identity on the values of its range. -/
theorem bmod_eq_self {x : Int} {m : Nat} (h₁ : -((m : Int) / 2) ≤ x) (h₂ : x < ((m : Int) + 1) / 2) :
    x.bmod m = x := by
  rcases Int.lt_or_le x 0 with hx | hx
  · have hm : x % m = x + m := by
      rw [← Int.add_emod_self]; exact Int.emod_eq_of_lt (by omega) (by omega)
    rw [Int.bmod_neg _ _ (by omega), hm]; omega
  · rw [Int.bmod_pos _ _ (by rw [Int.emod_eq_of_lt hx (by omega)]; omega),
      Int.emod_eq_of_lt hx (by omega)]

/-- A value in the range of `bits ≤ 32` signed bits is in the range of `int32`. -/
theorem bmod_32_of_bmod {x : Int} {bits : Nat} (hb : bits ≤ 32) (hx : x.bmod (2 ^ bits) = x) :
    x.bmod (2 ^ 32) = x := by
  have hp : 0 < 2 ^ bits := Nat.pos_pow_of_pos bits (by decide)
  have hle : 2 ^ bits ≤ 2 ^ 32 := Nat.pow_le_pow_right (by decide) hb
  have h₁ := Int.le_bmod (x := x) hp
  have h₂ := Int.bmod_lt (x := x) hp
  rw [hx] at h₁ h₂
  apply bmod_eq_self <;> push_cast <;> omega

theorem encodeInt_eq (x : Int) : encodeInt x = be 4 (x % 2 ^ 32).toNat := rfl

/-- `DecodeInt` of `EncodeInt(x)`: `x` as an `int32`. -/
theorem decodeInt_encodeInt (x : Int) :
    decodeInt ⟨encodeInt x ++ rest, full⟩ = .ok (x.bmod (2 ^ 32), ⟨rest, full⟩) := by
  have h₀ : 0 ≤ x % 2 ^ 32 := Int.emod_nonneg _ (by decide)
  have hu : (x % 2 ^ 32).toNat < 2 ^ 32 := by have := Int.emod_lt_of_pos x (b := 2 ^ 32) (by decide); omega
  have hx : ((x % 2 ^ 32).toNat : Int) = x % ((2 ^ 32 : Nat) : Int) := by
    rw [Int.toNat_of_nonneg h₀]; rfl
  simp only [decodeInt, encodeInt, decodeUnsignedInt_be hu, bind, Except.bind, pure, Except.pure, hx,
    Int.emod_bmod]

theorem decodeBool_encodeBool (b : Bool) :
    decodeBool ⟨encodeBool b ++ rest, full⟩ = .ok (b, ⟨rest, full⟩) := by
  have h : encodeBool b = be 4 (if b then 1 else 0) := by cases b <;> rfl
  rw [h]
  cases b <;> simp [decodeBool, decodeUnsignedInt_be, bind, Except.bind, pure, Except.pure]

/-- A hyper read from a stream that starts with its eight bytes. -/
theorem decodeUnsignedHyper_be {u : Nat} (hu : u < 2 ^ 64) :
    decodeUnsignedHyper ⟨be 8 u ++ rest, full⟩ = .ok (u, ⟨rest, full⟩) := by
  have hr : readFull 8 ⟨be 8 u ++ rest, full⟩ = (be 8 u, ⟨rest, full⟩, none) := by
    rw [readFull_of_le (by simp), List.take_left' (length_be 8 u), List.drop_left' (length_be 8 u)]
  simp only [decodeUnsignedHyper, hr, fromBE_be, Nat.mod_eq_of_lt (show u < 256 ^ 8 by simpa using hu)]

/-- `DecodeHyper` of `EncodeHyper(x)`: `x` as an `int64`. -/
theorem decodeHyper_encodeHyper (x : Int) :
    decodeHyper ⟨encodeHyper x ++ rest, full⟩ = .ok (x.bmod (2 ^ 64), ⟨rest, full⟩) := by
  have h₀ : 0 ≤ x % 2 ^ 64 := Int.emod_nonneg _ (by decide)
  have hu : (x % 2 ^ 64).toNat < 2 ^ 64 := by have := Int.emod_lt_of_pos x (b := 2 ^ 64) (by decide); omega
  have hx : ((x % 2 ^ 64).toNat : Int) = x % ((2 ^ 64 : Nat) : Int) := by
    rw [Int.toNat_of_nonneg h₀]; rfl
  simp only [decodeHyper, encodeHyper, decodeUnsignedHyper_be _ _ hu, bind, Except.bind, pure,
    Except.pure, hx, Int.emod_bmod]

/-- `DecodeFixedOpaque(n)` of `EncodeFixedOpaque(buf)` for a body of `n` bytes. -/
theorem decodeFixedOpaque_encode (w : WordSize) {buf : List UInt8} (hw : buf.length + 3 ≤ w.maxInt) :
    decodeFixedOpaque w buf.length ⟨encodeFixedOpaque buf ++ rest, full⟩ = .ok (buf, ⟨rest, full⟩) :=
  decodeFixedOpaque_ok w hw rfl (pad buf.length) rest (length_pad _) full

/-- `DecodeOpaque(maxLen)` of what `EncodeOpaque(buf)` wrote, for a body within `maxLen`. -/
theorem decodeOpaque_encode (w : WordSize) {maxLen : Nat} {buf bs : List UInt8}
    (he : encodeOpaque buf = .ok bs) (hmax : buf.length ≤ maxLen) (hw : buf.length + 3 ≤ w.maxInt) :
    decodeOpaque w maxLen ⟨bs ++ rest, full⟩ = .ok (buf, ⟨rest, full⟩) := by
  unfold encodeOpaque at he
  split_ifs at he with hu
  cases he
  have hu' : buf.length < 2 ^ 32 := by unfold maxUint32 at hu; omega
  have hpad : andNot3 (goInt w ((buf.length : Int) + 3)) = ((buf.length + padLen buf.length : Nat) : Int) := by
    rw [goInt_of_le w (by omega) (by exact_mod_cast hw), andNot3_add_three]
  have hr : readFull (buf.length + padLen buf.length) ⟨buf ++ pad buf.length ++ rest, full⟩ =
      (buf ++ pad buf.length, ⟨rest, full⟩, none) := by
    rw [readFull_of_le (by simp), List.take_left' (by simp), List.drop_left' (by simp)]
  simp only [decodeOpaque, encodeUnsignedInt, encodeFixedOpaque, List.append_assoc,
    decodeUnsignedInt_be hu']
  by_cases hz : buf.length = 0
  · obtain rfl := List.eq_nil_of_length_eq_zero hz
    rfl
  · rw [if_neg hz, if_neg (by omega), hpad, if_neg (by omega), Int.toNat_ofNat, ← List.append_assoc, hr]
    simp

end ReadBack

/-! ## Reads never run out of fuel -/

theorem decodeFixedOpaque_ne_outOfFuel (w : WordSize) (n : Nat) (inp : Input) :
    decodeFixedOpaque w n inp ≠ .error .outOfFuel := by
  intro h
  unfold decodeFixedOpaque at h
  split at h
  · cases h
  · dsimp only at h
    split_ifs at h
    · cases h
    · split at h <;> cases h

theorem decodeOpaque_ne_outOfFuel (w : WordSize) (maxLen : Nat) (inp : Input) :
    decodeOpaque w maxLen inp ≠ .error .outOfFuel := by
  intro h
  unfold decodeOpaque at h
  split at h
  · cases h
  · dsimp only at h
    split_ifs at h <;> cases h

end OncXdr
