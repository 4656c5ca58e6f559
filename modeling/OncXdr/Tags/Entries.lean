import OncXdr.Codec.Build

/-!
# OncXdr.Tags.Entries — the packed tag as a list of entries

What `Append` and `Prepend` build and what `Kind`, `ValueRange`, `Value` and `Next` read back,
over any list of entries `Append` accepts (`TagEntry`, which carries `Append`'s arity checks
and the `uint32` ranges as fields).

* Reading (`tag_entries_read_back`): the walk every user of a tag runs, `Kind()` and the
  `Value(j)` for `j` in `ValueRange()`, then `Next()`, until `Empty()`, reads back exactly the
  entries the tag was built from, with no accessor indexing past the end; so the `ByteString`
  key determines the entry list.
* Trimming (`trimmed_canonicalises`): `Trimmed` of such a tag is the tag of its entries without
  the trailing `Noop`s; it is idempotent, and `Next` and `makeOptCodec`'s
  `Next().Prepend(Noop).Trimmed()` keep a tag in that canonical form.

Boundary, stated plainly. `Append` writes the count of a multi-valued entry as
`uint32(len(values))`, so a `union:` tag listing `2^32` values or more is not a tag of its
entries, and the walk of its `Trimmed` may index past the end, where the source panics and the
model's `next` returns `[]`. The result about `ParseTag` therefore reads: its tag is canonical,
or it is a byte string no walk reads to its end (`parseTag_canonical`). The counts are `Nat`:
on a 32-bit host a tag whose `thisLen` would wrap in `int` is longer than memory.
-/

namespace OncXdr

/-! ## Entries -/

/-- One entry of a tag as `Append(kind, values...)` takes it: no value for a kind below `0x80`,
exactly one below `0xC0` (`Append` panics on any other arity), fewer than `2^32` values since
their count is written as a `uint32`, each a `uint32`. -/
structure TagEntry where
  kind : XDRTagKind
  values : List Nat
  valueless : kind < 0x80 → values = []
  single : 0x80 ≤ kind → kind < 0xC0 → values.length = 1
  count_lt : values.length < 2 ^ 32
  value_lt : ∀ v ∈ values, v < 2 ^ 32

namespace TagEntry

/-- What the accessors say of an entry: `Kind()` and the `Value(j)`s. -/
def raw (x : TagEntry) : XDRTagKind × List Nat := (x.kind, x.values)

theorem raw_injective : Function.Injective raw := by
  rintro ⟨k, vs, _, _, _, _⟩ ⟨k', vs', _, _, _, _⟩ h
  simp only [raw, Prod.mk.injEq] at h
  obtain ⟨rfl, rfl⟩ := h
  rfl

/-- The bytes `Append(x.kind, x.values...)` adds to a tag. -/
def bytes (x : TagEntry) : XDRTag := XDRTag.append [] x.kind x.values

/-- The entry `Prepend(Noop)` adds. -/
def noop : TagEntry := ⟨XDRTagKind.Noop, [], fun _ => rfl, by decide, by decide, by simp⟩

/-- The entry `-` parses to. -/
def skip : TagEntry := ⟨XDRTagKind.Skip, [], fun _ => rfl, by decide, by decide, by simp⟩

end TagEntry

namespace XDRTag

/-! ## Building a tag -/

/-- A tag built by `Append` from the empty tag, one entry after another. -/
def ofEntries (es : List TagEntry) : XDRTag := es.foldl (fun t x => t.append x.kind x.values) []

/-- The same entries put together by `Prepend`, from the last one to the first. -/
def ofEntriesPrepend (es : List TagEntry) : XDRTag :=
  es.foldr (fun x t => t.prepend x.kind x.values) []

theorem append_eq (t : XDRTag) (k : XDRTagKind) (vs : List Nat) :
    t.append k vs = t ++ XDRTag.append [] k vs := by
  unfold XDRTag.append; split_ifs <;> simp

theorem foldl_append_eq (es : List TagEntry) (t : XDRTag) :
    es.foldl (fun t x => t.append x.kind x.values) t = t ++ es.flatMap TagEntry.bytes := by
  induction es generalizing t with
  | nil => simp
  | cons x es ih => rw [List.foldl_cons, ih, append_eq, List.flatMap_cons, List.append_assoc]; rfl

theorem ofEntries_eq (es : List TagEntry) : ofEntries es = es.flatMap TagEntry.bytes :=
  foldl_append_eq es []

theorem ofEntriesPrepend_eq (es : List TagEntry) :
    ofEntriesPrepend es = es.flatMap TagEntry.bytes := by
  induction es with
  | nil => rfl
  | cons x es ih => rw [ofEntriesPrepend, List.foldr_cons, ← ofEntriesPrepend, ih]; rfl

theorem prepend_ofEntries (x : TagEntry) (es : List TagEntry) :
    prepend (ofEntries es) x.kind x.values = ofEntries (x :: es) := by
  rw [prepend, ofEntries_eq, ofEntries_eq, List.flatMap_cons]; rfl

@[simp] theorem length_flatMap_be (vs : List Nat) : (vs.flatMap (be 4)).length = 4 * vs.length := by
  induction vs with
  | nil => rfl
  | cons v vs ih => rw [List.flatMap_cons, List.length_append, length_be, ih, List.length_cons]; omega

/-- The bytes of one entry: its kind, then nothing, one value, or a count and the values. -/
theorem bytes_eq (x : TagEntry) : x.bytes = x.kind ::
    (if x.kind < 0x80 then [] else if x.kind < 0xC0 then be 4 (x.values.headD 0)
      else be 4 x.values.length ++ x.values.flatMap (be 4)) := by
  unfold TagEntry.bytes XDRTag.append; split_ifs <;> simp

theorem bytes_ne_nil (x : TagEntry) : x.bytes ≠ [] := by rw [bytes_eq]; exact List.cons_ne_nil _ _

/-! ## Words in a tag -/

theorem valAt_append {pre bs : XDRTag} (post : XDRTag) (h : bs.length = 4) :
    (pre ++ bs ++ post).valAt pre.length = fromBE bs := by
  match bs, h with
  | [b0, b1, b2, b3], _ =>
    simp only [valAt, List.getD_eq_getElem?_getD, List.append_assoc,
      List.getElem?_append_right (Nat.le_add_right _ _), List.getElem?_append_right (Nat.le_refl _),
      Nat.add_sub_cancel_left, Nat.sub_self]
    simp

theorem valAt_be (pre post : XDRTag) {v : Nat} (hv : v < 2 ^ 32) :
    (pre ++ be 4 v ++ post).valAt pre.length = v := by
  rw [valAt_append post (length_be 4 v), fromBE_be]; exact Nat.mod_eq_of_lt hv

/-- The values written by `Append`, read back four bytes apart. -/
theorem valAt_flatMap_be (post : XDRTag) :
    ∀ (vs : List Nat) (pre : XDRTag), (∀ v ∈ vs, v < 2 ^ 32) →
      (List.range vs.length).map
        (fun j => (pre ++ vs.flatMap (be 4) ++ post).valAt (pre.length + 4 * j)) = vs
  | [], _, _ => rfl
  | v :: vs, pre, hv => by
    rw [List.length_cons, List.range_succ_eq_map, List.map_cons, List.map_map]
    have h₀ : pre ++ (v :: vs).flatMap (be 4) ++ post = pre ++ be 4 v ++ (vs.flatMap (be 4) ++ post) := by
      simp [List.append_assoc]
    have h₁ := valAt_flatMap_be post vs (pre ++ be 4 v) (fun w hw => hv w (.tail _ hw))
    simp only [List.length_append, length_be, List.append_assoc] at h₁
    refine congr (congrArg List.cons ?_) ?_
    · rw [h₀, Nat.mul_zero, Nat.add_zero, valAt_be _ _ (hv v (.head _))]
    · refine Eq.trans (List.map_congr_left fun j _ => ?_) h₁
      simp only [Function.comp, h₀, List.append_assoc]
      exact congrArg _ (by omega)

theorem valAt_eq_fromBE {t : XDRTag} {o : Nat} (h : o + 4 ≤ t.length) :
    t.valAt o = fromBE ((t.drop o).take 4) := by
  have ht : t = t.take o ++ (t.drop o).take 4 ++ (t.drop o).drop 4 := by
    rw [List.append_assoc, List.take_append_drop, List.take_append_drop]
  have hl : (t.take o).length = o := List.length_take_of_le (by omega)
  have key := @valAt_append (t.take o) ((t.drop o).take 4) ((t.drop o).drop 4)
    (List.length_take_of_le (by simp; omega))
  rwa [← ht, hl] at key

theorem fromBE_lt_of_length {bs : List UInt8} (h : bs.length = 4) : fromBE bs < 2 ^ 32 := by
  simpa [h] using fromBE_lt bs

theorem valAt_lt (t : XDRTag) (o : Nat) : t.valAt o < 2 ^ 32 :=
  @fromBE_lt_of_length [t.getD o 0, t.getD (o + 1) 0, t.getD (o + 2) 0, t.getD (o + 3) 0] rfl

/-- A word read from a tag and written again gives the four bytes it was read from. -/
theorem be_valAt {t : XDRTag} {o : Nat} (h : o + 4 ≤ t.length) :
    be 4 (t.valAt o) = (t.drop o).take 4 := by
  have hb := be_fromBE ((t.drop o).take 4)
  rw [List.length_take_of_le (by simp; omega)] at hb
  rw [valAt_eq_fromBE h, hb]

/-- Words read four bytes apart, written again, are the bytes they were read from. -/
theorem flatMap_be_valAt (t : XDRTag) :
    ∀ (c o : Nat), o + 4 * c ≤ t.length →
      ((List.range c).map fun j => t.valAt (o + 4 * j)).flatMap (be 4) = (t.drop o).take (4 * c)
  | 0, _, _ => rfl
  | c + 1, o, h => by
    have ih := flatMap_be_valAt t c (o + 4) (by omega)
    rw [List.range_succ_eq_map, List.map_cons, List.map_map, List.flatMap_cons, Nat.mul_zero,
      Nat.add_zero, be_valAt (by omega), Nat.mul_succ, Nat.add_comm (4 * c), List.take_add,
      List.drop_drop, ← ih]
    refine congrArg (fun l => (t.drop o).take 4 ++ l.flatMap (be 4))
      (List.map_congr_left fun j _ => ?_)
    simp only [Function.comp]
    exact congrArg _ (by omega)

/-! ## The accessors on one entry -/

section Entry

variable (x : TagEntry) (rest : XDRTag)

@[simp] theorem kind_bytes_append : (x.bytes ++ rest).kind = x.kind := by
  rw [bytes_eq]; rfl

theorem thisLen_bytes_append : (x.bytes ++ rest).thisLen = x.bytes.length := by
  rw [bytes_eq]
  simp only [thisLen, List.cons_append]
  split_ifs with h₁ h₂
  · rfl
  · simp
  · have hc := valAt_be [x.kind] (x.values.flatMap (be 4) ++ rest) x.count_lt
    simp only [List.cons_append, List.nil_append, List.length_singleton, List.append_assoc] at hc
    simp only [List.append_assoc, hc, List.length_cons, List.length_append, length_be,
      length_flatMap_be]
    omega

theorem next_bytes_append : (x.bytes ++ rest).next = rest := by
  unfold next
  rw [thisLen_bytes_append]
  split_ifs with h
  · simp only [List.length_append, Nat.add_right_eq_self, List.length_eq_zero] at h
    exact h.symm
  · exact List.drop_left _ _

theorem values_bytes_append : XDRTag.values (x.bytes ++ rest) = x.values := by
  simp only [XDRTag.values, valueRange, kind_bytes_append]
  split_ifs with h₁ h₂
  · exact (x.valueless h₁).symm
  · -- one value, at `t[1 … 4]`
    obtain ⟨v, hv⟩ := List.length_eq_one.mp (x.single (UInt8.not_lt.mp h₁) h₂)
    have hlt := x.value_lt v (by simp [hv])
    rw [hv, bytes_eq]
    simp only [h₁, h₂, if_false, hv, List.headD_cons]
    have := valAt_be [x.kind] rest hlt
    simp_all [value]
  · -- the count at `t[1 … 4]`, then the values
    have hk : ¬ x.kind < 0x80 ∧ ¬ x.kind < 0xC0 := ⟨h₁, h₂⟩
    have hb : x.bytes ++ rest =
        [x.kind] ++ be 4 x.values.length ++ (x.values.flatMap (be 4) ++ rest) := by
      rw [bytes_eq]; simp [hk]
    have hc : (x.bytes ++ rest).valAt 1 = x.values.length := by
      rw [hb]; exact valAt_be [x.kind] _ x.count_lt
    have hv := valAt_flatMap_be rest x.values ([x.kind] ++ be 4 x.values.length) x.value_lt
    simp only [List.length_append, List.length_singleton, length_be, List.append_assoc] at hv
    rw [hc, Nat.add_sub_cancel_left, List.range'_eq_map_range, List.map_map]
    refine Eq.trans (List.map_congr_left fun j _ => ?_) hv
    simp only [Function.comp, value, hb, List.append_assoc, List.singleton_append]
    exact congrArg _ (by omega)

theorem length_bytes_pos : 0 < x.bytes.length := List.length_pos.mpr (bytes_ne_nil x)

end Entry

/-! ## The walk -/

/-- Whether the accessors of the first entry of a non-empty tag stay within it, as the source's
bounds checks have it: `Kind` reads `t[0]`; a single-valued entry has `ValueRange`'s hint
`t[4]` and `Value(0)` reads `t[1 … 4]`; a multi-valued one reads its count at `t[1 … 4]` in
`thisLen` and `ValueRange`, whose hint `t[4 * (1 + count)]` is the last byte any `Value(j)`
reads; `Next` slices at `thisLen`. -/
def firstInBounds (t : XDRTag) : Bool :=
  match t with
  | [] => true
  | k :: _ =>
    if k < 0x80 then true
    else if k < 0xC0 then 5 ≤ t.length
    else 5 ≤ t.length && 5 + 4 * t.valAt 1 ≤ t.length

/-- Walking a tag as its users do: while it is not `Empty()`, read `Kind()` and the values
`Value(j)` for `j` in `ValueRange()`, then go on with `Next()`; `none` where an accessor would
index past the end, which panics in Go. Each turn drops at least one byte, so the tag's length
bounds the turns. -/
def readEntries : Nat → XDRTag → Option (List (XDRTagKind × List Nat))
  | 0, t => if t.empty then some [] else none
  | fuel + 1, t =>
    if t.empty then some []
    else if !t.firstInBounds then none
    else (readEntries fuel t.next).map ((t.kind, t.values) :: ·)

/-- The entries of a tag, or `none` when walking it indexes past its end. -/
def entries (t : XDRTag) : Option (List (XDRTagKind × List Nat)) := readEntries t.length t

/-- The bounds checks on a non-empty tag come down to one: its first entry fits. -/
theorem firstInBounds_eq {t : XDRTag} (ht : t ≠ []) :
    t.firstInBounds = decide (t.thisLen ≤ t.length) := by
  obtain ⟨k, tl, rfl⟩ := List.exists_cons_of_ne_nil ht
  simp only [firstInBounds, thisLen]
  split_ifs
  · simp
  · rfl
  · rw [← Bool.decide_and, decide_eq_decide]; omega

theorem firstInBounds_bytes_append (x : TagEntry) (rest : XDRTag) :
    (x.bytes ++ rest).firstInBounds = true := by
  rw [firstInBounds_eq (by simp [bytes_ne_nil]), thisLen_bytes_append]
  simp

/-- The walk over entries put one after another reads back exactly those entries. -/
theorem readEntries_flatMap :
    ∀ (es : List TagEntry) (fuel : Nat), (es.flatMap TagEntry.bytes).length ≤ fuel →
      readEntries fuel (es.flatMap TagEntry.bytes) = some (es.map TagEntry.raw)
  | [], 0, _ | [], _ + 1, _ => rfl
  | x :: es, fuel, h => by
    have hx := length_bytes_pos x
    rw [List.flatMap_cons, List.length_append] at h
    obtain ⟨f, rfl⟩ : ∃ f, fuel = f + 1 := ⟨fuel - 1, by omega⟩
    have hne : (x.bytes ++ es.flatMap TagEntry.bytes).empty = false := by
      simp [empty, bytes_ne_nil]
    simp only [List.flatMap_cons, List.map_cons, readEntries, hne, firstInBounds_bytes_append,
      next_bytes_append, kind_bytes_append, values_bytes_append, Bool.not_true, Bool.false_eq_true,
      if_false]
    rw [readEntries_flatMap es f (by omega)]
    rfl

theorem entries_ofEntries (es : List TagEntry) :
    entries (ofEntries es) = some (es.map TagEntry.raw) := by
  rw [entries, ofEntries_eq]; exact readEntries_flatMap es _ le_rfl

/-- The packed format is faithful: a tag built by `Append`, or by `Prepend`, over any entry list
reads back as exactly that list with every accessor in bounds, and equal `ByteString` keys
come from equal entry lists. -/
theorem tag_entries_read_back :
    (∀ es : List TagEntry, entries (ofEntries es) = some (es.map TagEntry.raw) ∧
      entries (ofEntriesPrepend es) = some (es.map TagEntry.raw)) ∧
    Function.Injective fun es : List TagEntry => byteString (ofEntries es) :=
  ⟨fun es => ⟨entries_ofEntries es, by rw [ofEntriesPrepend_eq, ← ofEntries_eq, entries_ofEntries]⟩,
    fun es es' h => by
      have h' := congrArg entries (show ofEntries es = ofEntries es' from h)
      rw [entries_ofEntries, entries_ofEntries, Option.some_inj] at h'
      exact List.map_injective_iff.mpr TagEntry.raw_injective h'⟩

/-! ## Any tag the walk reads to its end -/

theorem next_eq_drop (t : XDRTag) : t.next = t.drop t.thisLen := by
  unfold next
  split_ifs with he
  · rw [← he, List.drop_length]
  · rfl

theorem one_le_thisLen {t : XDRTag} (ht : t ≠ []) : 1 ≤ t.thisLen := by
  obtain ⟨k, tl, rfl⟩ := List.exists_cons_of_ne_nil ht
  simp only [thisLen]; split_ifs <;> omega

/-- The entry the accessors read at the front of a non-empty tag whose first entry fits: it is
an entry `Append` takes, and its bytes are the tag's up to `Next()`. -/
theorem exists_entry {t : XDRTag} (ht : t ≠ []) (hb : t.firstInBounds = true) :
    ∃ x : TagEntry, x.raw = (t.kind, XDRTag.values t) ∧ x.bytes ++ t.next = t := by
  have hfit : t.thisLen ≤ t.length := by simpa [firstInBounds_eq ht] using hb
  obtain ⟨k, tl, rfl⟩ := List.exists_cons_of_ne_nil ht
  have hk : XDRTag.kind (k :: tl) = k := rfl
  refine ⟨⟨k, XDRTag.values (k :: tl), fun h => ?_, fun h₁ h₂ => ?_, ?_, fun v hv => ?_⟩, rfl, ?_⟩
  · simp [XDRTag.values, valueRange, hk, h]
  · simp [XDRTag.values, valueRange, hk, UInt8.not_lt.mpr h₁, h₂]
  · simp only [XDRTag.values, valueRange, hk, List.length_map, List.length_range']
    split_ifs
    · decide
    · decide
    · have := valAt_lt (k :: tl) 1; omega
  · simp only [XDRTag.values, List.mem_map] at hv
    obtain ⟨_, _, rfl⟩ := hv
    exact valAt_lt _ _
  · rw [next_eq_drop]
    refine Eq.trans (congrArg (· ++ _) ?_) (List.take_append_drop _ _)
    rw [bytes_eq]
    simp only [thisLen, XDRTag.values, valueRange, hk, List.length_cons] at hfit ⊢
    split_ifs at hfit ⊢ with h₁ h₂
    · rfl
    · simp only [Nat.sub_zero, List.range'_one, List.map_cons, List.map_nil, List.headD_cons,
        value, Nat.mul_zero, Nat.add_zero, be_valAt (show 1 + 4 ≤ (k :: tl).length by simp; omega)]
      rfl
    · have hc : (List.range' 1 (1 + valAt (k :: tl) 1 - 1)).map (value (k :: tl)) =
          (List.range (valAt (k :: tl) 1)).map fun j => valAt (k :: tl) (5 + 4 * j) := by
        rw [Nat.add_sub_cancel_left, List.range'_eq_map_range, List.map_map]
        refine List.map_congr_left fun j _ => ?_
        simp only [Function.comp, value]
        exact congrArg _ (by omega)
      rw [hc, List.length_map, List.length_range, be_valAt (by simp; omega),
        flatMap_be_valAt _ _ 5 (by simp; omega),
        show 5 + valAt (k :: tl) 1 * 4 = (4 + 4 * valAt (k :: tl) 1) + 1 by omega,
        List.take_succ_cons, List.take_add]
      rfl

/-- A tag the walk reads to its end is the tag of the entries it read. -/
theorem readEntries_eq_some : ∀ {fuel : Nat} {t : XDRTag} {rs : List (XDRTagKind × List Nat)},
    readEntries fuel t = some rs → ∃ es : List TagEntry, t = ofEntries es ∧ es.map TagEntry.raw = rs
  | 0, t, rs, h => by
    simp only [readEntries] at h
    split_ifs at h with he
    cases h
    exact ⟨[], List.isEmpty_iff.mp (by simpa [empty] using he), rfl⟩
  | fuel + 1, t, rs, h => by
    simp only [readEntries] at h
    split_ifs at h with he hb
    · cases h
      exact ⟨[], List.isEmpty_iff.mp (by simpa [empty] using he), rfl⟩
    · obtain ⟨rs', hr, rfl⟩ := Option.map_eq_some'.mp h
      obtain ⟨es, hes, rfl⟩ := readEntries_eq_some hr
      obtain ⟨x, hx, hxt⟩ := exists_entry (by simpa [empty] using he) (by simpa using hb)
      refine ⟨x :: es, ?_, by rw [List.map_cons, hx]⟩
      rw [ofEntries_eq, List.flatMap_cons, ← ofEntries_eq, ← hes, hxt]

/-! ## Trimming -/

/-- An entry list without its trailing `Noop` entries. -/
def trimEntries : List TagEntry → List TagEntry
  | [] => []
  | x :: es => if (trimEntries es).isEmpty ∧ x.kind = XDRTagKind.Noop then [] else x :: trimEntries es

theorem trimEntries_cons (x : TagEntry) (es : List TagEntry) : trimEntries (x :: es) =
    if (trimEntries es).isEmpty ∧ x.kind = XDRTagKind.Noop then [] else x :: trimEntries es := rfl

theorem trimEntries_prefix : ∀ es : List TagEntry, ∃ suf, es = trimEntries es ++ suf
  | [] => ⟨[], rfl⟩
  | x :: es => by
    obtain ⟨suf, hs⟩ := trimEntries_prefix es
    rw [trimEntries_cons]
    split_ifs
    · exact ⟨x :: es, rfl⟩
    · exact ⟨suf, by rw [List.cons_append, ← hs]⟩

theorem trimEntries_idem : ∀ es : List TagEntry, trimEntries (trimEntries es) = trimEntries es
  | [] => rfl
  | x :: es => by
    by_cases h : (trimEntries es).isEmpty ∧ x.kind = XDRTagKind.Noop
    · rw [trimEntries_cons, if_pos h]; rfl
    · rw [trimEntries_cons, if_neg h, trimEntries_cons, trimEntries_idem es, if_neg h]

/-- The loop of `Trimmed` over entries put one after another: `mark` stays where it was when
every entry is a trailing `Noop`, and is otherwise the end of the last entry that is not. -/
theorem trimmedLoop_flatMap :
    ∀ (es : List TagEntry) (fuel e mark : Nat), (es.flatMap TagEntry.bytes).length ≤ fuel →
      trimmedLoop fuel (es.flatMap TagEntry.bytes) e mark =
        if (trimEntries es).isEmpty then mark else e + ((trimEntries es).flatMap TagEntry.bytes).length
  | [], 0, _, _, _ | [], _ + 1, _, _, _ => rfl
  | x :: es, fuel, e, mark, h => by
    have hx := length_bytes_pos x
    rw [List.flatMap_cons, List.length_append] at h
    obtain ⟨f, rfl⟩ : ∃ f, fuel = f + 1 := ⟨fuel - 1, by omega⟩
    have hne : (x.bytes ++ es.flatMap TagEntry.bytes).empty = false := by
      simp [empty, bytes_ne_nil]
    simp only [List.flatMap_cons, trimmedLoop, hne, next_bytes_append, kind_bytes_append,
      thisLen_bytes_append, Bool.false_eq_true, if_false]
    rw [trimmedLoop_flatMap es f _ _ (by omega), trimEntries]
    by_cases hr : (trimEntries es).isEmpty <;> by_cases hk : x.kind = XDRTagKind.Noop <;>
      simp [hr, hk, List.isEmpty_iff.mp, Nat.add_assoc]

/-- `Trimmed` of a tag built from entries is the tag of those entries without the trailing
`Noop`s. -/
theorem trimmed_ofEntries (es : List TagEntry) :
    trimmed (ofEntries es) = ofEntries (trimEntries es) := by
  obtain ⟨suf, hs⟩ := trimEntries_prefix es
  rw [trimmed, ofEntries_eq, trimmedLoop_flatMap es _ 0 0 le_rfl, ofEntries_eq]
  have hb : es.flatMap TagEntry.bytes =
      (trimEntries es).flatMap TagEntry.bytes ++ suf.flatMap TagEntry.bytes := by
    rw [← List.flatMap_append, ← hs]
  rw [hb]
  split_ifs with h
  · rw [List.isEmpty_iff.mp h]; rfl
  · rw [Nat.zero_add, List.take_left]

example : trimmed [XDRTagKind.MaxLen, 0, 0, 0, 4, XDRTagKind.Noop, XDRTagKind.Noop] =
    [XDRTagKind.MaxLen, 0, 0, 0, 4] := by decide

/-- The form of every registry key: the tag of an entry list that is empty or ends in an entry
other than `Noop`. -/
def Canonical (t : XDRTag) : Prop := ∃ es, trimEntries es = es ∧ t = ofEntries es

theorem canonical_trimmed (es : List TagEntry) : Canonical (trimmed (ofEntries es)) :=
  ⟨trimEntries es, trimEntries_idem es, trimmed_ofEntries es⟩

theorem Canonical.trimmed_eq {t : XDRTag} (h : Canonical t) : trimmed t = t := by
  obtain ⟨es, hes, rfl⟩ := h
  rw [trimmed_ofEntries, hes]

theorem Canonical.next {t : XDRTag} (h : Canonical t) : Canonical (XDRTag.next t) := by
  obtain ⟨es, hes, rfl⟩ := h
  match es, hes with
  | [], _ => exact ⟨[], rfl, rfl⟩
  | x :: es, hes =>
    refine ⟨es, ?_, by rw [ofEntries_eq, ofEntries_eq, List.flatMap_cons, next_bytes_append]⟩
    rw [trimEntries_cons] at hes
    split_ifs at hes
    exact (List.cons.inj hes).2

theorem Canonical.iterate_next {t : XDRTag} (h : Canonical t) :
    ∀ n, Canonical (XDRTag.next^[n] t)
  | 0 => h
  | n + 1 => by rw [Function.iterate_succ_apply']; exact (h.iterate_next n).next

/-- The key `makeOptCodec` looks up, `tag.Next().Prepend(Noop).Trimmed()`, of a canonical tag
is canonical. -/
theorem Canonical.optKey {t : XDRTag} (h : Canonical t) :
    Canonical (trimmed (prepend (XDRTag.next t) XDRTagKind.Noop [])) := by
  obtain ⟨es, -, hes⟩ := h.next
  rw [hes, show XDRTagKind.Noop = TagEntry.noop.kind from rfl,
    show ([] : List Nat) = TagEntry.noop.values from rfl, prepend_ofEntries]
  exact canonical_trimmed _

/-- Where the walk indexes past the end, the loop of `Trimmed` marks past the end too: the entry
that does not fit is not a `Noop`. -/
theorem trimmedLoop_of_readEntries_none :
    ∀ (fuel : Nat) (t : XDRTag) (e mark : Nat), t.length ≤ fuel → readEntries fuel t = none →
      e + t.length ≤ trimmedLoop fuel t e mark
  | 0, t, _, _, hl, h => by
    simp [List.eq_nil_of_length_eq_zero (Nat.le_zero.mp hl), readEntries, empty] at h
  | fuel + 1, t, e, mark, hl, h => by
    have hne : t ≠ [] := by rintro rfl; simp [readEntries, empty] at h
    have he : t.empty = false := by simpa [empty] using hne
    have h1 := one_le_thisLen hne
    simp only [readEntries, he, Bool.false_eq_true, if_false] at h
    simp only [trimmedLoop, he, Bool.false_eq_true, if_false]
    split_ifs at h with hb
    · -- the first entry does not fit: it is not a `Noop`, and `Next` leaves nothing
      have hlt : t.length < t.thisLen := by simpa [firstInBounds_eq hne] using hb
      have hk : (XDRTag.kind t != XDRTagKind.Noop) = true := by
        obtain ⟨k, tl, rfl⟩ := List.exists_cons_of_ne_nil hne
        have h₀ : ¬ k < 0x80 := fun h₀ => by simp [firstInBounds, h₀] at hb
        simp only [XDRTag.kind, List.headD_cons, bne_iff_ne, ne_eq]
        rintro rfl; exact h₀ (by decide)
      rw [if_pos hk, next_eq_drop, List.drop_eq_nil_of_le hlt.le]
      cases fuel <;> simp [trimmedLoop, empty] <;> omega
    · -- the first entry fits, and the walk fails further on
      have hfit : t.thisLen ≤ t.length := by simpa [firstInBounds_eq hne] using hb
      have hr : readEntries fuel t.next = none := by simpa using h
      have hn : t.next.length = t.length - t.thisLen := by rw [next_eq_drop, List.length_drop]
      have := trimmedLoop_of_readEntries_none fuel t.next (e + t.thisLen)
        (if (XDRTag.kind t != XDRTagKind.Noop) = true then e + t.thisLen else mark) (by omega) hr
      omega

/-- `Trimmed` of a tag that cannot be walked to its end returns it whole. -/
theorem trimmed_of_entries_none {t : XDRTag} (h : entries t = none) : trimmed t = t :=
  List.take_of_length_le (by simpa using trimmedLoop_of_readEntries_none t.length t 0 0 le_rfl h)

/-- `Trimmed` of any byte string: the canonical tag of the entries it holds when the walk reads
it to its end, and otherwise the string itself, on which the source's loop indexes past the
end. -/
theorem trimmed_canonical_or_unreadable (t : XDRTag) :
    Canonical (trimmed t) ∨ (entries t = none ∧ trimmed t = t) := by
  cases h : entries t with
  | none => exact .inr ⟨rfl, trimmed_of_entries_none h⟩
  | some rs =>
    obtain ⟨es, rfl, -⟩ := readEntries_eq_some h
    exact .inl (canonical_trimmed es)

/-! ## The keys built from `ParseTag` -/

theorem canonical_skipTag : Canonical skipTag := ⟨[TagEntry.skip], rfl, rfl⟩

/-- `ParseTag` gives `-` as the skip tag, and every other tag through `Trimmed`. -/
theorem parseTag_eq_ok {U : Universe} {ty : TypeId} {stags : List Char} {mode mode' : IsInUnion}
    {r : XDRTag} (h : parseTag U ty stags mode = .ok (r, mode')) :
    r = skipTag ∨ ∃ xt, r = trimmed xt := by
  simp only [parseTag] at h
  split_ifs at h
  · cases h; exact .inl rfl
  all_goals
    repeat' split at h
    all_goals cases h
  all_goals exact .inr ⟨_, rfl⟩

/-- Every tag `ParseTag` returns is canonical, or is a byte string the walk of its `Trimmed`
indexed past the end of, where the source panics. -/
theorem parseTag_canonical {U : Universe} {ty : TypeId} {stags : List Char}
    {mode mode' : IsInUnion} {r : XDRTag} (h : parseTag U ty stags mode = .ok (r, mode')) :
    Canonical r ∨ entries r = none := by
  rcases parseTag_eq_ok h with rfl | ⟨xt, rfl⟩
  · exact .inl canonical_skipTag
  · rcases trimmed_canonical_or_unreadable xt with hc | ⟨hn, he⟩
    · exact .inl hc
    · exact .inr (by rw [he]; exact hn)

/-- Trimming canonicalises: `Trimmed` of a tag of entries is the tag of its entries without the
trailing `Noop`s, so it is idempotent and every suffix `Next` reaches from it is trimmed; `Next`
and `makeOptCodec`'s `Next().Prepend(Noop).Trimmed()` keep a tag canonical; and `ParseTag`
returns canonical tags, except byte strings no walk reads to its end. -/
theorem trimmed_canonicalises :
    (∀ es : List TagEntry, trimmed (ofEntries es) = ofEntries (trimEntries es)) ∧
    (∀ es : List TagEntry, trimmed (trimmed (ofEntries es)) = trimmed (ofEntries es)) ∧
    (∀ (es : List TagEntry) (n : Nat),
      trimmed (XDRTag.next^[n] (trimmed (ofEntries es))) = XDRTag.next^[n] (trimmed (ofEntries es))) ∧
    (∀ t : XDRTag, Canonical t →
      Canonical (XDRTag.next t) ∧ Canonical (trimmed (prepend (XDRTag.next t) XDRTagKind.Noop []))) ∧
    (∀ (U : Universe) (ty : TypeId) (stags : List Char) (mode mode' : IsInUnion) (r : XDRTag),
      parseTag U ty stags mode = .ok (r, mode') → Canonical r ∨ entries r = none) :=
  ⟨trimmed_ofEntries, fun es => (canonical_trimmed es).trimmed_eq,
    fun es n => ((canonical_trimmed es).iterate_next n).trimmed_eq, fun _ h => ⟨h.next, h.optKey⟩,
    fun _ _ _ _ _ _ h => parseTag_canonical h⟩

end XDRTag

end OncXdr
