import OncXdr.Wire.Reads

/-!
# OncXdr.Wire.OpaqueReader — `OpaqueReader` and `FixedOpaqueReader`

`FixedOpaqueReader(n)` wraps the decoder's reader in an `io.LimitedReader` of `N = n` bytes and
keeps the padding `((n + 3) &^ 3) - n`. `Read` and `WriteTo` read through the limit; `Close`
raises the limit by the padding and discards until the limit answers `EOF`. `OpaqueReader(maxLen)`
first reads the length word.

The underlying reader is the rest of the stream. Asked for `m > 0` bytes it returns between one
and `m` of them, as many as it chooses (`chunk`), and `EOF` when nothing is left: the `io.Reader`
contract, under which a reader does not answer a non-empty buffer with nothing and no error.
`WriteTo` is `io.Copy` from the limit, a run of such reads until `EOF` or a failing writer, so any
sequence of `Read` and `WriteTo` calls is a list of limited reads, each with its buffer size and
the underlying reader's chunk.

The reader is described by how many bytes it has taken from the stream (`OpaqueReaderState.taken`):
every read keeps that form (`read_at`), so whatever the calls, the caller gets a prefix of the
body and `Close` leaves the stream just past the padding (`opaque_reader_one_object`).
-/

namespace OncXdr

/-- An `opaqueReader`: the limit `lr.N`, `padLen`, and what is left of the underlying stream. -/
structure OpaqueReaderState where
  limit : Int
  padLen : Nat
  rest : List UInt8

/-- `newOpaqueReader(r, len)`, `padLen` being `uint8(((len + 3) &^ 3) - len)` in `int64`. -/
def newOpaqueReader (rest : List UInt8) (len : Nat) : OpaqueReaderState :=
  ⟨len, (andNot3 ((len : Int) + 3) - len).toNat % 256, rest⟩

/-- `OpaqueReader(maxLen)`: the length word, then a `LengthError` above `maxLen`, or the reader of
that many bytes. The length is returned in both cases; a failed read of it returns `0`. -/
def opaqueReader (maxLen : Nat) (inp : Input) : Nat × Except XdrError OpaqueReaderState :=
  match decodeUnsignedInt inp with
  | .error e => (0, .error e)
  | .ok (l, inp) =>
    if maxLen < l then (l, .error (.lengthError l maxLen)) else (l, .ok (newOpaqueReader inp.rest l))

namespace OpaqueReaderState

/-- The underlying reader's answer to a buffer of `m` bytes: `min m (max chunk 1)` bytes of the
stream, fewer where it ends. -/
def underRead (m chunk : Nat) (rest : List UInt8) : List UInt8 :=
  rest.take (if m = 0 then 0 else min m (max chunk 1))

/-- `lr.Read(p)` with `len(p) = m`, the underlying reader choosing `chunk`: `EOF` once the limit
is spent, else the buffer cut to the limit is passed on. Gives the bytes read, whether the
answer is `EOF`, and the reader after. -/
def read (r : OpaqueReaderState) (m chunk : Nat) : List UInt8 × Bool × OpaqueReaderState :=
  if r.limit ≤ 0 then ([], true, r)
  else
    let m := min m r.limit.toNat
    let got := underRead m chunk r.rest
    (got, got.isEmpty && m != 0, { r with limit := r.limit - got.length, rest := r.rest.drop got.length })

/-- A run of `Read` calls (and of the reads `WriteTo` makes), each with its buffer size and the
underlying reader's chunk: all the bytes the caller got, and the reader after. -/
def reads (r : OpaqueReaderState) : List (Nat × Nat) → List UInt8 × OpaqueReaderState
  | [] => ([], r)
  | (m, c) :: cs =>
    let (got, _, r) := r.read m c
    let (more, r) := r.reads cs
    (got ++ more, r)

/-- The loop of `io.Copy(ioutil.Discard, &lr)`: `Discard`'s `ReadFrom` reads into an 8 KiB
buffer until `EOF`, the `i`-th read from the end of `fuel` getting `chunk i`. Each read before
`EOF` takes at least one byte, so a `fuel` above the limit suffices. -/
def drain (chunk : Nat → Nat) : Nat → OpaqueReaderState → OpaqueReaderState
  | 0, r => r
  | fuel + 1, r =>
    let (_, eof, r') := r.read 8192 (chunk fuel)
    if eof then r' else drain chunk fuel r'

/-- `Close`: `lr.N += padLen`, then discard until `EOF`. -/
def close (r : OpaqueReaderState) (chunk : Nat → Nat) (fuel : Nat) : OpaqueReaderState :=
  drain chunk fuel { r with limit := r.limit + r.padLen }

/-! ## The reader after `k` bytes -/

/-- The reader with limit `L` over the stream `s`, once it has taken `k` bytes. -/
def taken (s : List UInt8) (L p k : Nat) : OpaqueReaderState := ⟨(L : Int) - k, p, s.drop k⟩

section Taken

variable {s : List UInt8} {L p k : Nat}

/-- One limited read from a reader that has taken `k ≤ L` bytes of a stream holding at least
`L`: it takes the next `k' - k` bytes and hands them over; it makes progress on a non-empty
buffer while the limit lasts, and answers `EOF` exactly when the limit is spent. -/
theorem read_at (hk : k ≤ L) (hL : L ≤ s.length) (m c : Nat) :
    ∃ k', k ≤ k' ∧ k' ≤ L ∧ (0 < m → k < L → k < k') ∧
      (taken s L p k).read m c = ((s.drop k).take (k' - k), decide (k = L), taken s L p k') := by
  by_cases he : k = L
  · subst he
    refine ⟨k, le_rfl, le_rfl, fun _ h => absurd h (lt_irrefl k), ?_⟩
    simp [read, taken]
  · have hlim : ¬ ((L : Int) - k ≤ 0) := by omega
    have htn : ((L : Int) - k).toNat = L - k := by omega
    set j := if min m (L - k) = 0 then 0 else min (min m (L - k)) (max c 1) with hj
    have hjl : j ≤ L - k := by rw [hj]; split_ifs <;> omega
    have hlen : ((s.drop k).take j).length = j := by simp; omega
    refine ⟨k + j, by omega, by omega, fun hm hkL => ?_, ?_⟩
    · have : 0 < j := by rw [hj]; split_ifs <;> omega
      omega
    · simp only [read, taken, hlim, if_false, htn, underRead, ← hj, hlen, List.drop_drop,
        Nat.add_sub_cancel_left, decide_eq_false he]
      refine Prod.ext rfl (Prod.ext ?_ ?_)
      · -- a non-empty buffer gets a non-empty answer while the limit lasts
        rw [Bool.and_eq_false_iff]
        by_cases h0 : min m (L - k) = 0
        · exact .inr (by simp [h0])
        · have hj0 : 0 < j := by rw [hj, if_neg h0]; omega
          refine .inl (Bool.eq_false_iff.mpr fun h => ?_)
          rw [List.isEmpty_iff.mp h, List.length_nil] at hlen
          omega
      · show OpaqueReaderState.mk _ _ _ = OpaqueReaderState.mk _ _ _
        congr 1
        omega

/-- A run of reads takes the next `k' - k` bytes and hands over exactly those. -/
theorem reads_taken (hL : L ≤ s.length) :
    ∀ (calls : List (Nat × Nat)) (k : Nat), k ≤ L →
      ∃ k', k ≤ k' ∧ k' ≤ L ∧ (taken s L p k).reads calls = ((s.drop k).take (k' - k), taken s L p k')
  | [], k, _ => ⟨k, le_rfl, ‹_›, by simp [reads]⟩
  | (m, c) :: cs, k, hk => by
    obtain ⟨k₁, h₁, h₁L, -, hr⟩ := read_at (p := p) hk hL m c
    obtain ⟨k₂, h₂, h₂L, hrs⟩ := reads_taken hL cs k₁ h₁L
    refine ⟨k₂, by omega, h₂L, ?_⟩
    simp only [reads, hr, hrs, List.drop_drop]
    refine Prod.ext ?_ rfl
    show _ = List.take (k₂ - k) (List.drop k s)
    rw [← List.take_append_drop (k₁ - k) (List.take (k₂ - k) (List.drop k s)), List.take_take,
      List.drop_take, List.drop_drop, Nat.min_eq_left (by omega), Nat.add_sub_cancel' h₁,
      show k₂ - k - (k₁ - k) = k₂ - k₁ by omega]

/-- `Close`'s drain ends with the limit spent, when the stream holds it: each read before `EOF`
takes at least one byte, and the one after answers `EOF`. -/
theorem drain_taken (hL : L ≤ s.length) (chunk : Nat → Nat) :
    ∀ (fuel k : Nat), k ≤ L → L - k < fuel → drain chunk fuel (taken s L p k) = taken s L p L
  | 0, _, _, hf => absurd hf (Nat.not_lt_zero _)
  | fuel + 1, k, hk, hf => by
    obtain ⟨k', hk', hk'L, hprog, hr⟩ := read_at (p := p) hk hL 8192 (chunk fuel)
    simp only [drain, hr]
    by_cases he : k = L
    · subst he
      rw [decide_eq_true rfl, if_pos rfl, show k' = k by omega]
    · rw [decide_eq_false he, if_neg Bool.false_ne_true]
      exact drain_taken hL chunk fuel k' hk'L (by have := hprog (by decide) (by omega); omega)

/-- `Close` raises the limit by the padding. -/
theorem close_taken (n k : Nat) (chunk : Nat → Nat) (fuel : Nat) :
    (taken s n p k).close chunk fuel = drain chunk fuel (taken s (n + p) p k) := by
  simp only [close, taken]
  congr 2
  push_cast
  omega

end Taken

theorem newOpaqueReader_eq (s : List UInt8) (n : Nat) :
    newOpaqueReader s n = taken s n (OncXdr.padLen n) 0 := by
  have hp : (andNot3 ((n : Int) + 3) - n).toNat = OncXdr.padLen n := by
    rw [andNot3_add_three]; omega
  have hm : OncXdr.padLen n % 256 = OncXdr.padLen n :=
    Nat.mod_eq_of_lt (by have := padLen_lt n; omega)
  simp only [newOpaqueReader, taken, hp, hm, Int.natCast_zero, Int.sub_zero, List.drop_zero]

end OpaqueReaderState

/-- `OpaqueReader(maxLen)` on a stream starting with a length word `n ≤ maxLen`: the reader of
`n` bytes over what follows the word. -/
theorem opaqueReader_be {maxLen n : Nat} (hn : n < 2 ^ 32) (hmax : n ≤ maxLen) (s : List UInt8)
    (full : Bool) :
    opaqueReader maxLen ⟨be 4 n ++ s, full⟩ = (n, .ok (newOpaqueReader s n)) := by
  simp only [opaqueReader, decodeUnsignedInt_be hn, if_neg (Nat.not_lt.mpr hmax)]

open OpaqueReaderState in
/-- The reader of `n` bytes, whether from `FixedOpaqueReader(n)` or from `OpaqueReader` after a
length word `n ≤ maxLen`, over a stream that holds the body and its padding: whatever `Read` and
`WriteTo` calls are made, the caller gets a prefix of the body, and after `Close` the stream is
exactly past the padding. A drain of more reads than the padded body has bytes sees `EOF`. -/
theorem opaque_reader_one_object {n : Nat} (hn : n < 2 ^ 32) {s : List UInt8}
    (hs : n + padLen n ≤ s.length) (calls : List (Nat × Nat)) (chunk : Nat → Nat) {fuel : Nat}
    (hf : n + padLen n < fuel) :
    (∀ maxLen full, n ≤ maxLen →
      opaqueReader maxLen ⟨be 4 n ++ s, full⟩ = (n, .ok (newOpaqueReader s n))) ∧
    ((newOpaqueReader s n).reads calls).1 <+: s.take n ∧
    (((newOpaqueReader s n).reads calls).2.close chunk fuel).rest = s.drop (n + padLen n) := by
  refine ⟨fun maxLen full hmax => opaqueReader_be hn hmax s full, ?_⟩
  obtain ⟨k, -, hk, hr⟩ :=
    reads_taken (p := padLen n) (by omega : n ≤ s.length) calls 0 (Nat.zero_le n)
  rw [newOpaqueReader_eq, hr, close_taken, drain_taken hs chunk fuel k (by omega) (by omega)]
  refine ⟨?_, rfl⟩
  -- what the caller got is the first `k ≤ n` bytes
  rw [List.drop_zero, Nat.sub_zero, ← Nat.min_eq_left hk, ← List.take_take]
  exact List.take_prefix _ _

/-- Two bytes of body and two of padding, read one byte at a time: the caller gets `01`, and
`Close` leaves `05`. -/
theorem opaque_reader_two_bytes :
    2 < 2 ^ 32 ∧ 2 + padLen 2 ≤ [1, 2, 3, 4, 5].length ∧ 2 + padLen 2 < 10 ∧
    ((∀ maxLen full, 2 ≤ maxLen → opaqueReader maxLen ⟨be 4 2 ++ [1, 2, 3, 4, 5], full⟩ =
        (2, .ok (newOpaqueReader [1, 2, 3, 4, 5] 2))) ∧
      ((newOpaqueReader [1, 2, 3, 4, 5] 2).reads [(1, 1)]).1 <+: [1, 2, 3, 4, 5].take 2 ∧
      (((newOpaqueReader [1, 2, 3, 4, 5] 2).reads [(1, 1)]).2.close (fun _ => 1) 10).rest =
        [1, 2, 3, 4, 5].drop (2 + padLen 2)) :=
  ⟨by decide, by decide, by decide,
    opaque_reader_one_object (by decide) (by decide) [(1, 1)] (fun _ => 1) (by decide)⟩

end OncXdr
