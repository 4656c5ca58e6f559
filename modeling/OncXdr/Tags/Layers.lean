import OncXdr.Tags.Entries

/-!
# OncXdr.Tags.Layers — the entries of a parsed tag sit on the layers of its type

`ParseTag(t, …)` reads one `/`-separated token per type layer: the token's entries apply to the
current type (`opaque` on an array or slice to its element as well, after a `Noop` for the
container), and the type then descends by `Elem()`. A leading `union:` token is about the struct
and takes no layer. So after its union entry a parsed tag's entries line up, one by one, with the
layers of the field's type, and every check `ParseTag` made on a layer holds of the type found
there. The one the codecs rely on is `canBeOpt`: every `Opt` entry sits on a pointer or an
interface (`OptsFit`, `parseTag_layers`).

The alignment is stated for tags shorter than `2^32` characters. A `union:` token listing `2^32`
values or more makes `Append` wrap its count, and the tag no longer reads back as entries; no Go
struct tag is that long.
-/

namespace OncXdr

open Text

/-! ## The text of a tag -/

namespace Text

theorem length_split_le (sep : Char) : ∀ s : List Char, (split sep s).length ≤ s.length + 1
  | [] => le_rfl
  | c :: cs => by
    have ih := length_split_le sep cs
    simp only [split]
    split_ifs
    · simp only [List.length_cons]; omega
    · rcases h : split sep cs with _ | ⟨w, ws⟩
      · simp
      · rw [h] at ih; simp only [List.length_cons] at ih ⊢; omega

theorem length_le_of_mem_split (sep : Char) : ∀ {s w : List Char}, w ∈ split sep s → w.length ≤ s.length
  | [], w, h => by simp only [split, List.mem_singleton] at h; simp [h]
  | c :: cs, w, h => by
    simp only [split] at h
    split_ifs at h
    · rcases List.mem_cons.mp h with rfl | h
      · simp
      · exact (length_le_of_mem_split sep h).trans (Nat.le_succ _)
    · rcases hs : split sep cs with _ | ⟨w', ws⟩ <;> rw [hs] at h
      · simp only [List.mem_singleton] at h; simp [h]
      · rcases List.mem_cons.mp h with rfl | h
        · exact Nat.succ_le_succ (length_le_of_mem_split sep (hs ▸ List.mem_cons_self w' ws))
        · exact (length_le_of_mem_split sep (hs ▸ List.mem_cons_of_mem w' h)).trans (Nat.le_succ _)

theorem length_headD_split_le (sep : Char) (s : List Char) :
    ((split sep s).headD []).length ≤ s.length := by
  rcases h : split sep s with _ | ⟨w, ws⟩
  · simp
  · have hw : w ∈ split sep s := h ▸ List.mem_cons_self w ws
    exact length_le_of_mem_split sep hw

theorem length_trimSpace_le (s : List Char) : (trimSpace s).length ≤ s.length :=
  calc (trimSpace s).length = ((s.dropWhile isSpace).reverse.dropWhile isSpace).length := by
        rw [trimSpace, List.length_reverse]
    _ ≤ (s.dropWhile isSpace).reverse.length := (List.dropWhile_suffix _).length_le
    _ ≤ s.length := by rw [List.length_reverse]; exact (List.dropWhile_suffix _).length_le

theorem parseDigits_le {base maxVal : Nat} :
    ∀ {cs : List Char} {n m : Nat}, n ≤ maxVal → parseDigits base maxVal cs n = some m → m ≤ maxVal
  | [], _, _, hn, h => by cases h; exact hn
  | c :: cs, n, m, hn, h => by
    simp only [parseDigits] at h
    split_ifs at h
    · exact parseDigits_le hn h
    · split at h
      · cases h
      · split_ifs at h with _ hmax
        exact parseDigits_le (not_lt.mp hmax) h

/-- `ParseUint(s, 0, 32)` gives a `uint32`. -/
theorem parseUint32_lt {s : List Char} {n : Nat} (h : parseUint32 s = some n) : n < 2 ^ 32 := by
  rcases hb : basePrefix s with ⟨base, body⟩
  simp only [parseUint32, hb] at h
  split_ifs at h <;> split at h <;> cases h
  rename_i hm
  have := parseDigits_le (Nat.zero_le _) hm
  omega

/-- The values `parseU32s` gives: one `uint32` per comma-separated part. -/
theorem parseU32s_eq_some {s : List Char} {vs : List Nat} (h : parseU32s s = some vs) :
    vs.length ≤ s.length + 1 ∧ ∀ v ∈ vs, v < 2 ^ 32 := by
  suffices ∀ (ps : List (List Char)) (vs : List Nat), ps.mapM parseUint32 = some vs →
      vs.length = ps.length ∧ ∀ v ∈ vs, v < 2 ^ 32 by
    obtain ⟨hl, hv⟩ := this _ _ h
    exact ⟨hl ▸ length_split_le ',' s, hv⟩
  intro ps
  induction ps with
  | nil => intro vs h; simp only [List.mapM_nil] at h; cases h; simp
  | cons p ps ih =>
    intro vs h
    simp only [List.mapM_cons, Option.bind_eq_bind, Option.pure_def, Option.bind_eq_some,
      Option.some.injEq] at h
    obtain ⟨v, hv, ws, hws, rfl⟩ := h
    obtain ⟨hl, hw⟩ := ih ws hws
    exact ⟨by simp [hl], by simpa using ⟨parseUint32_lt hv, hw⟩⟩

end Text

/-! ## The entries `ParseTag` appends -/

namespace TagEntry

/-- `Opt`. -/
def opt : TagEntry := ⟨XDRTagKind.Opt, [], fun _ => rfl, by decide, by decide, by simp⟩

/-- `Opaque`. -/
def opaqueLayer : TagEntry := ⟨XDRTagKind.Opaque, [], fun _ => rfl, by decide, by decide, by simp⟩

/-- `Len` or `MaxLen`, with its value. -/
def limit (k : XDRTagKind) (hk : k = XDRTagKind.Len ∨ k = XDRTagKind.MaxLen) (v : Nat)
    (hv : v < 2 ^ 32) : TagEntry :=
  ⟨k, [v], fun h => absurd h (by rcases hk with rfl | rfl <;> decide), fun _ _ => rfl,
    show 1 < 2 ^ 32 by decide, by simpa using hv⟩

/-- `UnionSwitch`. -/
def unionSwitch : TagEntry := ⟨XDRTagKind.UnionSwitch, [], fun _ => rfl, by decide, by decide, by simp⟩

/-- `UnionDefault`. -/
def unionDefault : TagEntry :=
  ⟨XDRTagKind.UnionDefault, [], fun _ => rfl, by decide, by decide, by simp⟩

/-- `UnionCases`, with its case values. -/
def unionCases (vs : List Nat) (hc : vs.length < 2 ^ 32) (hv : ∀ v ∈ vs, v < 2 ^ 32) : TagEntry :=
  ⟨XDRTagKind.UnionCases, vs, fun h => absurd h (by decide), fun _ h => absurd h (by decide), hc, hv⟩

end TagEntry

theorem XDRTag.ofEntries_concat (es : List TagEntry) (x : TagEntry) :
    XDRTag.ofEntries (es ++ [x]) = (XDRTag.ofEntries es).append x.kind x.values := by
  simp only [XDRTag.ofEntries, List.foldl_append, List.foldl_cons, List.foldl_nil]

/-! ## Entries on the layers of a type -/

section Fit

variable (U : Universe)

/-- Every `Opt` entry of `es`, read down from the type `t` one `Elem()` per entry, falls on a
type `canBeOpt` admits. -/
def OptsFit : TypeId → List TagEntry → Prop
  | _, [] => True
  | t, x :: es => (x.kind = XDRTagKind.Opt → canBeOpt (U.kind t) = true) ∧ OptsFit (U.elem t) es

variable {U}

@[simp] theorem optsFit_nil (t : TypeId) : OptsFit U t [] := trivial

theorem OptsFit.of_append : ∀ {t : TypeId} {es suf : List TagEntry}, OptsFit U t (es ++ suf) →
    OptsFit U t es
  | _, [], _, _ => trivial
  | _, _ :: _, _, ⟨hx, h⟩ => ⟨hx, h.of_append⟩

theorem OptsFit.trimEntries {t : TypeId} {es : List TagEntry} (h : OptsFit U t es) :
    OptsFit U t (XDRTag.trimEntries es) := by
  obtain ⟨suf, hs⟩ := XDRTag.trimEntries_prefix es
  rw [hs] at h
  exact h.of_append

/-- An entry other than `Opt` at the first layer of `t`. -/
theorem optsFit_cons {t : TypeId} {x : TagEntry} (hx : x.kind ≠ XDRTagKind.Opt)
    {es : List TagEntry} (h : OptsFit U (U.elem t) es) : OptsFit U t (x :: es) :=
  ⟨fun h' => absurd h' hx, h⟩

end Fit

/-! ## `ParseTag` -/

section Parse

variable (U : Universe)

/-- One token appends entries that sit on the layers from `t` to `t'`, the type the descent
starts from. -/
theorem parseLayer_fit {t t' : TypeId} {es : List TagEntry} {p : List Char} {xt : XDRTag}
    (h : parseLayer U t (XDRTag.ofEntries es) p = .ok (xt, t')) :
    ∃ ls, xt = XDRTag.ofEntries (es ++ ls) ∧
      ∀ rest, OptsFit U (U.elem t') rest → OptsFit U t (ls ++ rest) := by
  have ok {x : TagEntry} {u : TypeId} (hx : Except.ok ((XDRTag.ofEntries es).append x.kind x.values, u) =
      (.ok (xt, t') : Except TagError (XDRTag × TypeId))) :
      xt = XDRTag.ofEntries (es ++ [x]) ∧ u = t' := by
    simp only [Except.ok.injEq, Prod.mk.injEq] at hx
    exact ⟨hx.1.symm.trans (XDRTag.ofEntries_concat es x).symm, hx.2⟩
  unfold parseLayer at h
  by_cases h₀ : trimSpace p = []
  · rw [if_pos h₀] at h
    obtain ⟨rfl, rfl⟩ := ok (x := TagEntry.noop) h
    exact ⟨_, rfl, fun _ h => optsFit_cons (by decide) h⟩
  rw [if_neg h₀] at h
  by_cases h₁ : trimSpace p = "opt".toList
  · rw [if_pos h₁] at h
    by_cases hc : canBeOpt (U.kind t) = true
    · rw [if_pos hc] at h
      obtain ⟨rfl, rfl⟩ := ok (x := TagEntry.opt) h
      exact ⟨_, rfl, fun _ h => ⟨fun _ => hc, h⟩⟩
    · rw [if_neg hc] at h
      cases h
  rw [if_neg h₁] at h
  by_cases h₂ : trimSpace p = "opaque".toList
  · -- on an array or a slice, a `Noop` for it and the `Opaque` on its element
    rw [if_pos h₂] at h
    by_cases ha : U.kind t = .array ∨ U.kind t = .slice
    · simp only [if_pos ha] at h
      by_cases hb : U.kind (U.elem t) = .int8 ∨ U.kind (U.elem t) = .uint8
      · simp only [if_pos hb, Except.ok.injEq, Prod.mk.injEq] at h
        obtain ⟨rfl, rfl⟩ := h
        refine ⟨[TagEntry.noop, TagEntry.opaqueLayer], ?_, fun _ h =>
          optsFit_cons (by decide) (optsFit_cons (by decide) h)⟩
        rw [← List.singleton_append, ← List.append_assoc, XDRTag.ofEntries_concat,
          XDRTag.ofEntries_concat]
        rfl
      · simp only [if_neg hb] at h
        cases h
    · simp only [if_neg ha] at h
      by_cases hb : U.kind t = .int8 ∨ U.kind t = .uint8
      · simp only [if_pos hb] at h
        obtain ⟨rfl, rfl⟩ := ok (x := TagEntry.opaqueLayer) h
        exact ⟨_, rfl, fun _ h => optsFit_cons (by decide) h⟩
      · simp only [if_neg hb] at h
        cases h
  rw [if_neg h₂] at h
  by_cases h₃ : hasPrefix (trimSpace p) "len:".toList = true
  · rw [if_pos h₃] at h
    split at h
    · cases h
    rename_i len hlen
    split_ifs at h
    obtain ⟨rfl, rfl⟩ := ok (x := TagEntry.limit _ (.inl rfl) len (parseUint32_lt hlen)) h
    exact ⟨_, rfl, fun _ h => optsFit_cons (show XDRTagKind.Len ≠ XDRTagKind.Opt by decide) h⟩
  rw [if_neg h₃] at h
  by_cases h₄ : hasPrefix (trimSpace p) "maxlen:".toList = true
  · rw [if_pos h₄] at h
    split at h
    · cases h
    rename_i len hlen
    split_ifs at h
    obtain ⟨rfl, rfl⟩ := ok (x := TagEntry.limit _ (.inr rfl) len (parseUint32_lt hlen)) h
    exact ⟨_, rfl, fun _ h => optsFit_cons (show XDRTagKind.MaxLen ≠ XDRTagKind.Opt by decide) h⟩
  rw [if_neg h₄] at h
  cases h

/-- The layer loop appends entries that sit on the layers of `t`, the type it starts from. -/
theorem parseLayers_fit : ∀ {ps : List (List Char)} {t : TypeId} {es : List TagEntry} {xt : XDRTag},
    parseLayers U ps t (XDRTag.ofEntries es) = .ok xt →
      ∃ ls, xt = XDRTag.ofEntries (es ++ ls) ∧ OptsFit U t ls
  | [], _, _, _, h => by cases h; exact ⟨[], by rw [List.append_nil], trivial⟩
  | p :: ps, t, es, xt, h => by
    simp only [parseLayers] at h
    split at h
    · cases h
    rename_i xt₁ t₁ h₁
    obtain ⟨ls₁, rfl, hfit⟩ := parseLayer_fit U h₁
    split at h
    · cases h
      exact ⟨ls₁, rfl, by simpa using hfit [] trivial⟩
    · split_ifs at h
      obtain ⟨ls₂, rfl, h₂⟩ := parseLayers_fit h
      exact ⟨ls₁ ++ ls₂, by rw [List.append_assoc], hfit ls₂ h₂⟩

/-- A leading `union:` token gives one entry, other than `Noop`, and leaves the struct a union;
it is refused in a struct already known not to be one. -/
theorem parseUnionHead_entry {t : TypeId} {p : List Char} {u u' : IsInUnion} {xt : XDRTag}
    (hp : (trimPrefix p "union:".toList).length + 1 < 2 ^ 32)
    (h : parseUnionHead U t p u = .ok (xt, u')) :
    u ≠ .notInUnion ∧ u' = .inUnion ∧ ∃ x : TagEntry, x.kind ≠ XDRTagKind.Noop ∧
      xt = XDRTag.ofEntries [x] := by
  unfold parseUnionHead at h
  by_cases hs : p = "union:switch".toList
  · rw [if_pos hs] at h
    split_ifs at h with hu
    cases h
    exact ⟨by rintro rfl; exact hu (by decide), rfl, TagEntry.unionSwitch, by decide, rfl⟩
  rw [if_neg hs] at h
  by_cases hu : u ≠ .inUnion
  · rw [if_pos hu] at h
    cases h
  rw [if_neg hu] at h
  obtain rfl : u = .inUnion := not_not.mp hu
  refine ⟨by decide, ?_⟩
  by_cases hf : p = "union:false".toList
  · rw [if_pos hf] at h
    cases h
    exact ⟨rfl, TagEntry.unionCases [0] (by decide) (by decide), by decide, rfl⟩
  rw [if_neg hf] at h
  by_cases ht : p = "union:true".toList
  · rw [if_pos ht] at h
    cases h
    exact ⟨rfl, TagEntry.unionCases [1] (by decide) (by decide), by decide, rfl⟩
  rw [if_neg ht] at h
  by_cases hd : p = "union:default".toList
  · rw [if_pos hd] at h
    cases h
    exact ⟨rfl, TagEntry.unionDefault, by decide, rfl⟩
  rw [if_neg hd] at h
  split at h
  · cases h
  rename_i vs hvs
  cases h
  obtain ⟨hl, hv⟩ := parseU32s_eq_some hvs
  exact ⟨rfl, TagEntry.unionCases vs (by omega) hv,
    show XDRTagKind.UnionCases ≠ XDRTagKind.Noop by decide, rfl⟩

/-- What `ParseTag` returns: the skip tag, or entries that sit on the layers of the field's type,
after a union entry exactly when the verdict is a union. Without a union entry the struct is not
a union and the call was not made inside one; with one, the call was not made in a struct known
not to be one. -/
theorem parseTag_layers {ty : TypeId} {stags : List Char} {m u : IsInUnion} {p : XDRTag}
    (hs : stags.length < 2 ^ 32) (h : parseTag U ty stags m = .ok (p, u)) :
    p = skipTag ∧ u = m ∨ ∃ ls, OptsFit U ty ls ∧
      (u = .notInUnion ∧ m ≠ .inUnion ∧ p = XDRTag.ofEntries ls ∨
        u = .inUnion ∧ m ≠ .notInUnion ∧ ∃ x, p = XDRTag.ofEntries (x :: ls)) := by
  unfold parseTag at h
  by_cases hd : trimSpace stags = "-".toList
  · rw [if_pos hd] at h
    cases h
    exact .inl ⟨rfl, rfl⟩
  rw [if_neg hd] at h
  refine .inr ?_
  by_cases hu : hasPrefix ((split '/' (trimSpace stags)).headD []) "union:".toList = true
  · rw [if_pos hu] at h
    split at h
    · cases h
    rename_i xt u₁ hhead
    split at h
    · cases h
    rename_i xt' hlayers
    cases h
    -- the union token is part of the tag, shorter than the tag
    have hlen : (trimPrefix ((split '/' (trimSpace stags)).headD []) "union:".toList).length + 1 <
        2 ^ 32 := by
      have h₀ := (length_headD_split_le '/' _).trans (length_trimSpace_le stags)
      have h₆ := (List.isPrefixOf_iff_prefix.mp hu).length_le
      have : "union:".toList.length = 6 := rfl
      rw [trimPrefix, if_pos hu, List.length_drop]
      omega
    obtain ⟨hm, rfl, x, hx, rfl⟩ := parseUnionHead_entry U hlen hhead
    obtain ⟨ls, rfl, hfit⟩ := parseLayers_fit U hlayers
    refine ⟨XDRTag.trimEntries ls, hfit.trimEntries, .inr ⟨rfl, hm, x, ?_⟩⟩
    rw [XDRTag.trimmed_ofEntries, List.singleton_append, XDRTag.trimEntries_cons,
      if_neg fun h => hx h.2]
  · rw [if_neg hu] at h
    split_ifs at h with hm
    split at h
    · cases h
    rename_i xt' hlayers
    cases h
    -- the layers start from the empty tag, the tag of no entries
    obtain ⟨ls, rfl, hfit⟩ := parseLayers_fit U
      (show parseLayers U _ ty (XDRTag.ofEntries []) = .ok xt' from hlayers)
    exact ⟨XDRTag.trimEntries ls, hfit.trimEntries,
      .inl ⟨rfl, hm, by rw [XDRTag.trimmed_ofEntries, List.nil_append]⟩⟩

end Parse

end OncXdr
