import Mathlib.Data.List.Basic
import Mathlib.Algebra.Group.Int

/-!
# OncXdr.Wire.Word — big-endian words, padding, and Go's `int`

The arithmetic under the wire layer. XDR writes every integer as a big-endian word of four or
eight bytes (`encoder.EncodeInt`, `EncodeHyper`) and reads it back by shifting bytes together
(`decoder.DecodeUnsignedInt`, `DecodeUnsignedHyper`); `be` and `fromBE` are those two
directions, on any width. Variable-length bodies are padded to a multiple of four.

The engine also computes with Go's `int`, whose width is that of the host. `WordSize` names
the two widths Go supports, `maxInt` is the constant of `internal/coder/coder.go`, and
`goInt` is what a signed `int` computation wraps to.
-/

namespace OncXdr

/-! ## Bytes of a word -/

/-- `be n x`: the `n` low bytes of `x`, most significant first — `byte(i >> 24)`, …,
`byte(i)` in `EncodeInt` for `n = 4`, and the eight shifts of `EncodeHyper` for `n = 8`. -/
def be : Nat → Nat → List UInt8
  | 0, _ => []
  | n + 1, x => be n (x / 256) ++ [UInt8.ofNat (x % 256)]

/-- The word the decoder assembles from bytes, `uint32(b[0])<<24 | … | uint32(b[3])`. -/
def fromBE (bs : List UInt8) : Nat :=
  bs.foldl (fun acc b => acc * 256 + b.toNat) 0

@[simp] theorem length_be (n x : Nat) : (be n x).length = n := by
  induction n generalizing x with
  | zero => rfl
  | succ n ih => simp [be, ih]

theorem foldl_be_acc (a : Nat) (ys : List UInt8) :
    ys.foldl (fun acc b => acc * 256 + b.toNat) a = a * 256 ^ ys.length + fromBE ys := by
  induction ys generalizing a with
  | nil => simp [fromBE]
  | cons y ys ih =>
    simp only [List.foldl_cons, List.length_cons, fromBE]
    rw [ih, ih (0 * 256 + y.toNat), Nat.pow_succ]
    simp only [Nat.zero_mul, Nat.zero_add, Nat.add_mul, Nat.mul_assoc, Nat.add_assoc]
    rw [Nat.mul_comm 256]

theorem fromBE_append (xs ys : List UInt8) :
    fromBE (xs ++ ys) = fromBE xs * 256 ^ ys.length + fromBE ys := by
  rw [fromBE, List.foldl_append, foldl_be_acc]; rfl

theorem uint8_toNat_lt (b : UInt8) : b.toNat < 256 := b.toBitVec.isLt

theorem fromBE_lt (bs : List UInt8) : fromBE bs < 256 ^ bs.length := by
  induction bs using List.reverseRecOn with
  | nil => simp [fromBE]
  | append_singleton bs b ih =>
    rw [fromBE_append]
    have hb : fromBE [b] = b.toNat := by simp [fromBE]
    have hb' := uint8_toNat_lt b
    simp only [List.length_append, List.length_singleton, Nat.pow_succ, hb, Nat.pow_zero,
      Nat.one_mul]
    omega

/-- Reading back a written word recovers it modulo the word's range. -/
theorem fromBE_be (n x : Nat) : fromBE (be n x) = x % 256 ^ n := by
  induction n generalizing x with
  | zero => simp [be, fromBE, Nat.mod_one]
  | succ n ih =>
    have hlt : x % 256 < UInt8.size := Nat.mod_lt _ (by decide)
    rw [be, fromBE_append, ih]
    simp only [length_be, List.length_singleton, Nat.pow_one, fromBE, List.foldl_cons,
      List.foldl_nil, Nat.zero_mul, Nat.zero_add, UInt8.toNat_ofNat_of_lt hlt]
    rw [Nat.pow_succ', Nat.mod_mul, Nat.mul_comm]; omega

theorem uint8_ofNat_toNat (b : UInt8) : UInt8.ofNat b.toNat = b := by
  cases b
  simp [UInt8.ofNat, UInt8.toNat]

/-- Writing back a read word gives the bytes that were read. -/
theorem be_fromBE (bs : List UInt8) : be bs.length (fromBE bs) = bs := by
  induction bs using List.reverseRecOn with
  | nil => rfl
  | append_singleton bs b ih =>
    have hb := uint8_toNat_lt b
    have hdiv : fromBE (bs ++ [b]) / 256 = fromBE bs := by
      rw [fromBE_append]; simp [fromBE]; omega
    have hmod : fromBE (bs ++ [b]) % 256 = b.toNat := by
      rw [fromBE_append]; simp [fromBE]; omega
    rw [List.length_append, List.length_singleton, be, hdiv, ih, hmod, uint8_ofNat_toNat]

/-! ## Padding -/

/-- Bytes of padding after a body of `n` bytes: `(4 - (len(buf) & 3)) & 3` in
`EncodeFixedOpaque`, which for a length is `(4 - n % 4) % 4`. -/
def padLen (n : Nat) : Nat := (4 - n % 4) % 4

/-- The padding itself, from the all-zero `pad` array of `encoder.go`. -/
def pad (n : Nat) : List UInt8 := List.replicate (padLen n) 0

theorem padLen_lt (n : Nat) : padLen n < 4 := Nat.mod_lt _ (by decide)

theorem add_padLen_dvd (n : Nat) : 4 ∣ n + padLen n := by
  unfold padLen; omega

@[simp] theorem length_pad (n : Nat) : (pad n).length = padLen n := by simp [pad]

/-! ## Go's `int` -/

/-- The two widths of Go's `int`. -/
inductive WordSize
  | w32
  | w64
  deriving DecidableEq, Repr

/-- Bits in an `int` of this width. -/
def WordSize.bits : WordSize → Nat
  | .w32 => 32
  | .w64 => 64

/-- `maxInt = int(^uint(0) >> 1)`. -/
def WordSize.maxInt (w : WordSize) : Nat := 2 ^ (w.bits - 1) - 1

/-- The value a signed `int` computation holds after wrapping to `w` bits. -/
def goInt (w : WordSize) (x : Int) : Int := Int.bmod x (2 ^ w.bits)

/-- `x &^ 3` on a two's-complement integer: clearing the two low bits takes away its
residue modulo four. -/
def andNot3 (x : Int) : Int := x - x % 4

/-- `math.MaxUint32`, the largest length a length prefix can carry. -/
def maxUint32 : Nat := 2 ^ 32 - 1

@[simp] theorem maxInt_w32 : WordSize.w32.maxInt = 2 ^ 31 - 1 := rfl
@[simp] theorem maxInt_w64 : WordSize.w64.maxInt = 2 ^ 63 - 1 := rfl

theorem maxUint32_le_maxInt_w64 : maxUint32 ≤ WordSize.w64.maxInt := by
  simp [maxUint32]

end OncXdr
