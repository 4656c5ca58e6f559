import OncXdr.Codec.Encode
import OncXdr.Codec.Decode

/-!
# OncXdr.Codec.Run — `Encode`, `Decode`, `Marshal`, `Unmarshal`

A top-level call first looks its type up: `getBaseCodec(t)` on a fresh registry runs
`getNewCodec`, which builds the codec and, inside the builder, every codec it looks up that is
not yet known, depth first. A panic in any of these builds ends the call. `construct` is that
construction, so `encode` and `decode` are the calls on a new `Coder`; a `Coder` that already
holds codecs, or placeholders of builds that panicked, is the registry model's
(`Registry.run`). Then the codec runs on the value:
* `Encode(v)` encodes `reflect.ValueOf(v)`, which is not addressable; `Encode(&v)` is the
  encoding of a pointer to `v`;
* `Decode(&x)` decodes into `reflect.ValueOf(&x).Elem()`, which is addressable and settable.
-/

namespace OncXdr

variable (e : Env)

/-- The builds run by a lookup on a fresh registry: each key of the work list not yet built is
built, and the keys its builder looked up are built next. The keys built, or the first panic. -/
def construct : Nat → List Key → List Key → Except Fail (List Key)
  | _, [], known => .ok known
  | 0, _ :: _, _ => .error .outOfFuel
  | n + 1, k :: todo, known =>
    if k ∈ known then construct n todo known
    else match buildCodec e.U e.w k with
      | .error m => .error (.panic m)
      | .ok b => construct n (b.lookups ++ todo) (k :: known)

/-- The key of a top-level call: the type, no tag. -/
def Key.base (t : TypeId) : Key := ⟨t, []⟩

/-- `Encode(v)` on a new `Coder`, for a value `v` of type `t` (`Marshal` gives the same bytes). -/
def encode (fuel : Nat) (t : TypeId) (v : Value) : Except Fail (List UInt8) :=
  match construct e fuel [Key.base t] [] with
  | .error f => .error f
  | .ok _ => encodeAt e fuel (Key.base t) (.reflect false false) v

/-- `Decode(&x)` on a new `Coder`, for `x : t` holding `x`, from the stream `inp`: the new `x`
and the rest of the stream. -/
def decode (fuel : Nat) (t : TypeId) (x : Value) (inp : Input) : Except Fail (Value × Input) :=
  match construct e fuel [Key.base t] [] with
  | .error f => .error f
  | .ok _ => decodeAt e fuel (Key.base t) (.reflect true false) x inp

/-- `Unmarshal(buf, &x)`: decoding from a `bytes.Reader` over `buf`. -/
def unmarshal (fuel : Nat) (t : TypeId) (x : Value) (buf : List UInt8) : Except Fail Value :=
  (decode e fuel t x ⟨buf, true⟩).map Prod.fst

end OncXdr
