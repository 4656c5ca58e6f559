import OncXdr.Registry.State
import OncXdr.Tags.Entries
import OncXdr.Codec.TagAgreement
import Mathlib.Data.List.Infix
import Mathlib.Logic.Relation

/-!
# OncXdr.Registry.Termination — `getCodec` ends on every finite type graph

A call `getCodec(t, tag)` builds depth first: a `getNewCodec` that wins its `LoadOrStore` has
installed a placeholder at a key that held nothing, and only then does `buildCodec` look up the
child keys. The keys lie in a finite set (`reachKeys`): the types reachable from `t`
(`typeChildren`) paired with the suffixes `Next` reaches from `tag` and from the tags `ParseTag`
gives the fields of those types, bare or behind one `Noop` entry. A build of one of these keys
only looks up others (`reachKeys_closed`): `Next` walks on along a tag, and `makeOptCodec`'s
`Next().Prepend(Noop).Trimmed()` of a tag `ParseTag` can return is a `Noop` before a suffix, or
empty (`XDRTag.optTag_mem_noopSuffixes`).

The goroutine making the call, running alone from any registry state, ends it (it returns, or a
build panics) within a number of its own steps that the key set bounds (`getCodec_terminates`):
no step waits on a placeholder, even one whose build never finishes. The bound comes from a
potential (`potential`): unknown keys of the set, each worth more than any build's work, plus
each frame's steps still to take; every step lowers it (`stepFrame_progress`). Every job the
call creates is for a key of the set that was unknown when the call began, one job per key
(`NewJobs`).

When no build of a key of the set panics and every entry of `knownCodecs` passes `c.(xCodec)`,
the call returns a codec for its key and raises no panic: its frame stays at the bottom of the
goroutine's stack, still to return its key's codec, until it returns (`Lookup`, kept by every
step: `Lookup.stepFrame`). A union whose switch field is `int8` is a key whose build panics, and
its lookup returns nothing (`int8_switch_lookup_panics`).
-/

namespace OncXdr

namespace XDRTag

/-! ## The tags a build reaches -/

/-- The tags `ParseTag` returns: canonical, or a byte string whose walk indexes past its end. -/
def Parsed (t : XDRTag) : Prop := Canonical t ∨ entries t = none

/-- A walk with fuel to spare reads a tag of entries to its end. -/
theorem readEntries_ne_none {t : XDRTag} {fuel : Nat} (hf : t.length ≤ fuel)
    {rs : List (XDRTagKind × List Nat)} (h : entries t = some rs) :
    readEntries fuel t ≠ none := by
  obtain ⟨es, rfl, -⟩ := readEntries_eq_some h
  rw [ofEntries_eq] at hf ⊢
  simp [readEntries_flatMap es fuel hf]

/-- `Next` of a `Noop`-prefixed tag drops the `Noop`. -/
theorem next_noop (m : XDRTag) : XDRTag.next (XDRTagKind.Noop :: m) = m := by
  cases m <;> rfl

theorem length_next_lt {t : XDRTag} (ht : t ≠ []) : (XDRTag.next t).length < t.length := by
  rw [next_eq_drop, List.length_drop]
  have := one_le_thisLen ht
  have := List.length_pos.mpr ht
  omega

/-- `Next` keeps a tag parsed: a walk that indexes past the end of a tag does so past the end
of its first entry, which leaves nothing, or further on. -/
theorem Parsed.next {t : XDRTag} (h : Parsed t) : Parsed (XDRTag.next t) := by
  rcases h with h | h
  · exact .inl h.next
  by_cases hn : XDRTag.next t = []
  · exact .inl (hn ▸ ⟨[], rfl, rfl⟩)
  have hne : t ≠ [] := by rintro rfl; exact hn rfl
  have hfit : t.thisLen ≤ t.length := by
    by_contra hlt
    exact hn (by rw [next_eq_drop, List.drop_eq_nil_of_le (by omega)])
  obtain ⟨n, hlen⟩ := Nat.exists_eq_succ_of_ne_zero (List.length_pos.mpr hne).ne'
  have hrest : readEntries n (XDRTag.next t) = none := by
    have he : t.empty = false := by simpa [empty] using hne
    rw [entries, hlen] at h
    simpa [readEntries, he, firstInBounds_eq hne, hfit] using h
  refine .inr (Option.eq_none_iff_forall_not_mem.mpr fun rs hrs =>
    readEntries_ne_none ?_ hrs hrest)
  have := length_next_lt hne
  omega

theorem Parsed.iterate_next {t : XDRTag} (h : Parsed t) : ∀ i, Parsed (XDRTag.next^[i] t)
  | 0 => h
  | i + 1 => by rw [Function.iterate_succ_apply']; exact (h.iterate_next i).next

/-- `Trimmed` of a `Noop` put before a parsed tag: the empty tag, or the same bytes. -/
theorem Parsed.trimmed_noop {m : XDRTag} (h : Parsed m) :
    trimmed (XDRTagKind.Noop :: m) = [] ∨
      trimmed (XDRTagKind.Noop :: m) = XDRTagKind.Noop :: m := by
  rcases h with ⟨es, hes, rfl⟩ | h
  · have hp : XDRTagKind.Noop :: ofEntries es = ofEntries (TagEntry.noop :: es) :=
      prepend_ofEntries TagEntry.noop es
    rw [hp, trimmed_ofEntries, trimEntries_cons, hes]
    split_ifs
    · exact .inl rfl
    · exact .inr rfl
  · refine .inr (trimmed_of_entries_none ?_)
    have h0 : XDRTagKind.Noop < 0x80 := by decide
    simpa [entries, readEntries, empty, firstInBounds, h0, next_noop] using h

/-- `Next` run `i` times leaves nothing once `i` reaches the length. -/
theorem iterate_next_eq_nil : ∀ (i : Nat) (t : XDRTag), t.length ≤ i → XDRTag.next^[i] t = []
  | 0, _, h => List.eq_nil_of_length_eq_zero (Nat.le_zero.mp h)
  | i + 1, t, h => by
    rw [Function.iterate_succ_apply]
    refine iterate_next_eq_nil i _ ?_
    by_cases ht : t = []
    · simp [ht, next_eq_drop]
    · have := length_next_lt ht
      omega

/-- The tags `Next` reaches from `p`: `p`, `p.Next()`, ..., down to the empty tag. -/
def nexts (p : XDRTag) : List XDRTag := (List.range (p.length + 1)).map (XDRTag.next^[·] p)

theorem mem_nexts {p l : XDRTag} : l ∈ nexts p ↔ ∃ i, l = XDRTag.next^[i] p := by
  simp only [nexts, List.mem_map, List.mem_range]
  constructor
  · rintro ⟨i, -, rfl⟩
    exact ⟨i, rfl⟩
  · rintro ⟨i, rfl⟩
    by_cases hi : i < p.length + 1
    · exact ⟨i, hi, rfl⟩
    · refine ⟨p.length, Nat.lt_succ_self _, ?_⟩
      rw [iterate_next_eq_nil _ p le_rfl, iterate_next_eq_nil i p (by omega)]

/-- The tags a build can look a codec up under, from the parsed tag `p`: the suffixes `Next`
reaches from `p`, bare or behind one `Noop` entry. -/
def noopSuffixes (p : XDRTag) : List XDRTag :=
  nexts p ++ (nexts p).map (XDRTag.prepend · XDRTagKind.Noop [])

/-- A `Noop` entry is its kind byte alone. -/
theorem prepend_noop (l : XDRTag) :
    XDRTag.prepend l XDRTagKind.Noop [] = XDRTagKind.Noop :: l := rfl

theorem mem_noopSuffixes {p l : XDRTag} : l ∈ noopSuffixes p ↔
    (∃ i, l = XDRTag.next^[i] p) ∨ ∃ i, l = XDRTagKind.Noop :: XDRTag.next^[i] p := by
  simp only [noopSuffixes, List.mem_append, List.mem_map, mem_nexts, prepend_noop]
  exact or_congr Iff.rfl
    ⟨fun ⟨_, ⟨i, hi⟩, h⟩ => ⟨i, hi ▸ h.symm⟩, fun ⟨i, h⟩ => ⟨_, ⟨i, rfl⟩, h.symm⟩⟩

theorem self_mem_noopSuffixes (p : XDRTag) : p ∈ noopSuffixes p :=
  mem_noopSuffixes.mpr (.inl ⟨0, rfl⟩)

theorem nil_mem_noopSuffixes (p : XDRTag) : [] ∈ noopSuffixes p :=
  mem_noopSuffixes.mpr (.inl ⟨p.length, (iterate_next_eq_nil _ p le_rfl).symm⟩)

theorem next_mem_noopSuffixes {p l : XDRTag} (h : l ∈ noopSuffixes p) :
    XDRTag.next l ∈ noopSuffixes p := by
  rcases mem_noopSuffixes.mp h with ⟨i, rfl⟩ | ⟨i, rfl⟩
  · exact mem_noopSuffixes.mpr (.inl ⟨i + 1, (Function.iterate_succ_apply' _ _ _).symm⟩)
  · exact mem_noopSuffixes.mpr (.inl ⟨i, next_noop _⟩)

/-- `Opt` replaced by `Noop`: the tag `makeOptCodec` looks up stays in the set of a parsed tag. -/
theorem optTag_mem_noopSuffixes {p l : XDRTag} (hp : Parsed p) (h : l ∈ noopSuffixes p)
    (hk : XDRTag.kind l = XDRTagKind.Opt) :
    XDRTag.trimmed (XDRTag.prepend (XDRTag.next l) XDRTagKind.Noop []) ∈ noopSuffixes p := by
  rcases mem_noopSuffixes.mp h with ⟨i, rfl⟩ | ⟨i, rfl⟩
  · rw [prepend_noop, ← Function.iterate_succ_apply' XDRTag.next]
    rcases (hp.iterate_next (i + 1)).trimmed_noop with h | h <;> rw [h]
    · exact nil_mem_noopSuffixes p
    · exact mem_noopSuffixes.mpr (.inr ⟨i + 1, rfl⟩)
  · exact absurd (hk.symm.trans rfl) (by decide : XDRTagKind.Opt ≠ XDRTagKind.Noop)

end XDRTag

/-! ## The keys a build reaches -/

/-- The types the codec of `t` can look codecs up for: a pointer's, array's or slice's element, a
map's key and element, a struct's fields. -/
def typeChildren (U : Universe) (t : TypeId) : List TypeId :=
  match (U.info t).shape with
  | .ptr e | .array _ e | .slice e => [e]
  | .map k e => [k, e]
  | .struct fs => fs.map Field.type
  | .scalar _ => []

/-- The tags `ParseTag` gives the fields of `t`, in each of `makeStructCodec`'s three modes. -/
def fieldTags (U : Universe) (t : TypeId) : List XDRTag :=
  match (U.info t).shape with
  | .struct fs => fs.flatMap fun f =>
      [IsInUnion.maybeInUnion, .notInUnion, .inUnion].filterMap fun m =>
        match parseTag U f.type f.tag m with
        | .ok (p, _) => some p
        | .error _ => none
  | _ => []

/-- Every field tag is one `ParseTag` returned. -/
theorem parsed_of_mem_fieldTags {U : Universe} {t : TypeId} {p : XDRTag}
    (h : p ∈ fieldTags U t) : XDRTag.Parsed p := by
  simp only [fieldTags] at h
  split at h
  · obtain ⟨f, -, hm⟩ := List.mem_flatMap.mp h
    obtain ⟨m, -, hm⟩ := List.mem_filterMap.mp hm
    split at hm
    · cases hm
      exact XDRTag.parseTag_canonical (by assumption)
    · cases hm
  · cases h

/-- The keys a lookup of a type of `ts` under `tag` can reach: every type of `ts` with every
suffix `Next` reaches from `tag` or from a parsed field tag of a type of `ts`, bare or behind one
`Noop`. -/
def reachKeys (U : Universe) (ts : List TypeId) (tag : XDRTag) : List Key :=
  let tags := (tag :: ts.flatMap (fieldTags U)).flatMap XDRTag.noopSuffixes
  ts.flatMap fun t => tags.map (Key.mk t)

theorem mem_reachKeys {U : Universe} {ts : List TypeId} {tag : XDRTag} {k : Key} :
    k ∈ reachKeys U ts tag ↔ k.type ∈ ts ∧
      ∃ p, (p = tag ∨ ∃ t ∈ ts, p ∈ fieldTags U t) ∧ k.tag ∈ XDRTag.noopSuffixes p := by
  simp only [reachKeys, List.mem_flatMap, List.mem_map, List.mem_cons]
  constructor
  · rintro ⟨t, ht, l, ⟨p, hp, hl⟩, rfl⟩
    exact ⟨ht, p, hp, hl⟩
  · rintro ⟨ht, p, hp, hl⟩
    exact ⟨k.type, ht, k.tag, ⟨p, hp, hl⟩, rfl⟩

section Lookups

variable (U : Universe) (w : WordSize)

/-- A key a struct's codec looks up for one of its fields: the field's type, under the tag
`ParseTag` gave the field or under the entries after its first (a union's switch and arms). -/
def FieldKey (fs : List Field) (l : Key) : Prop :=
  ∃ f ∈ fs, ∃ m p u, parseTag U f.type f.tag m = .ok (p, u) ∧
    (l = ⟨f.type, p⟩ ∨ l = ⟨f.type, XDRTag.next p⟩)

variable {U} {fs : List Field} {t : TypeId} {name : String}

theorem structFields_lookups : ∀ (rest : List (Nat × Field)) (fields : List FieldRec)
    (lookups : List Key), (∀ x ∈ rest, x.2 ∈ fs) →
    ∀ l ∈ (structFields U t name rest fields lookups).lookups, l ∈ lookups ∨ FieldKey U fs l
  | [], _, _, _, _, hl => .inl hl
  | (i, f) :: rest, fields, lookups, hr, l, hl => by
    have hr' : ∀ x ∈ rest, x.2 ∈ fs := fun x hx => hr x (.tail _ hx)
    simp only [structFields] at hl
    split at hl
    · exact .inl hl
    · rename_i tag u hp
      split_ifs at hl
      · exact structFields_lookups rest fields lookups hr' l hl
      · rcases structFields_lookups rest _ _ hr' l hl with h | h
        · rcases List.mem_append.mp h with h | h
          · exact .inl h
          · exact .inr
              ⟨f, hr _ (.head _), .notInUnion, tag, u, hp, .inl (List.mem_singleton.mp h)⟩
        · exact .inr h

theorem unionFields_lookups {sw : FieldRec} {kind : SwitchKind} :
    ∀ (rest : List (Nat × Field)) (bodies : List FieldRec) (cases : List (Nat × Nat))
    (dflt : Option Nat) (lookups : List Key), (∀ x ∈ rest, x.2 ∈ fs) →
    ∀ l ∈ (unionFields U t name sw kind rest bodies cases dflt lookups).lookups,
      l ∈ lookups ∨ FieldKey U fs l
  | [], _, _, _, _, _, _, hl => .inl hl
  | (i, f) :: rest, bodies, cases, dflt, lookups, hr, l, hl => by
    have hr' : ∀ x ∈ rest, x.2 ∈ fs := fun x hx => hr x (.tail _ hx)
    simp only [unionFields] at hl
    split at hl
    · exact .inl hl
    · rename_i tag u hp
      -- every arm's key is looked up, whatever its case values turn out to be
      have arm : ∀ l, l ∈ lookups ++ [⟨f.type, XDRTag.next tag⟩] → l ∈ lookups ∨ FieldKey U fs l :=
        fun l h => (List.mem_append.mp h).imp id fun h =>
          ⟨f, hr _ (.head _), .inUnion, tag, u, hp, .inr (List.mem_singleton.mp h)⟩
      have more : ∀ bodies cases dflt,
          ∀ l ∈ (unionFields U t name sw kind rest bodies cases dflt
            (lookups ++ [⟨f.type, XDRTag.next tag⟩])).lookups, l ∈ lookups ∨ FieldKey U fs l :=
        fun bodies cases dflt l h =>
          (unionFields_lookups rest bodies cases dflt _ hr' l h).elim (arm l) .inr
      split_ifs at hl
      · exact unionFields_lookups rest bodies cases dflt lookups hr' l hl
      · split at hl
        · exact arm l hl
        · exact more _ _ _ l hl
      · exact arm l hl
      · exact more _ _ _ l hl
      · exact more _ _ _ l hl

theorem classifyFields_some : ∀ {L : List (Nat × Field)} {i : Nat} {f : Field} {tag : XDRTag}
    {u : IsInUnion} {rest : List (Nat × Field)},
    classifyFields U t L = .ok (.ok (some (i, f, tag, u, rest))) →
      (i, f) ∈ L ∧ parseTag U f.type f.tag .maybeInUnion = .ok (tag, u) ∧ ∀ x ∈ rest, x ∈ L
  | [], _, _, _, _, _, h => nomatch h
  | (i', f') :: L, i, f, tag, u, rest, h => by
    simp only [classifyFields] at h
    split at h
    · cases h
    · rename_i tag' u' hp
      split_ifs at h
      · obtain ⟨h₁, h₂, h₃⟩ := classifyFields_some h
        exact ⟨.tail _ h₁, h₂, fun x hx => .tail _ (h₃ x hx)⟩
      · cases h
        exact ⟨.head _, hp, fun x hx => .tail _ hx⟩

/-- Every key a struct's codec looks up is a `FieldKey` of its fields. -/
theorem makeStructCodec_lookups {b : Built} (h : makeStructCodec U t fs = .ok b) :
    ∀ l ∈ b.lookups, FieldKey U fs l := by
  have hmem : ∀ {x : Nat × Field}, x ∈ fs.enum → x.2 ∈ fs := List.snd_mem_of_mem_enumFrom
  simp only [makeStructCodec] at h
  split at h
  · cases h
  · cases h; exact fun _ h => nomatch h
  · cases h; exact fun _ h => nomatch h
  · rename_i i f tag u rest hc
    obtain ⟨hf, hp, hrest⟩ := classifyFields_some hc
    have first : FieldKey U fs ⟨f.type, tag⟩ := ⟨f, hmem hf, .maybeInUnion, tag, u, hp, .inl rfl⟩
    have switch : FieldKey U fs ⟨f.type, XDRTag.next tag⟩ :=
      ⟨f, hmem hf, .maybeInUnion, tag, u, hp, .inr rfl⟩
    split at h
    · cases h
      exact fun l hl => (structFields_lookups rest _ _ (fun x hx => hmem (hrest x hx)) l hl).elim
        (fun h => List.mem_singleton.mp h ▸ first) id
    · split_ifs at h
      split at h
      · cases h
      · cases h
        exact fun l hl =>
          (unionFields_lookups rest _ _ _ _ (fun x hx => hmem (hrest x hx)) l hl).elim
            (fun h => List.mem_singleton.mp h ▸ switch) id
    · cases h

variable (U)

/-- The keys `buildCodec` looks up for `k`, none when it panics. -/
def childKeys (k : Key) : List Key :=
  match buildCodec U w k with
  | .ok b => b.lookups
  | .error _ => []

variable {U w}

/-- A build looks up the same type again with `Opt` replaced by `Noop`, or a child type under
the entries after the first, under no tag, or under a field's parsed tag or the entries after its
first. -/
theorem childKeys_cases {k l : Key} (h : l ∈ childKeys U w k) :
    (XDRTag.kind k.tag = XDRTagKind.Opt ∧
      l = ⟨k.type, XDRTag.trimmed (XDRTag.prepend (XDRTag.next k.tag) XDRTagKind.Noop [])⟩) ∨
    (l.type ∈ typeChildren U k.type ∧ (l.tag = XDRTag.next k.tag ∨ l.tag = [] ∨
      ∃ p ∈ fieldTags U k.type, l.tag = p ∨ l.tag = XDRTag.next p)) := by
  obtain ⟨t, tag⟩ := k
  unfold childKeys at h
  split at h
  swap
  · exact nomatch h
  rename_i b hb
  simp only [buildCodec] at hb
  by_cases hopt : XDRTag.kind tag = XDRTagKind.Opt
  · rw [if_pos hopt] at hb
    cases hb
    exact .inl ⟨hopt, List.mem_singleton.mp h⟩
  rw [if_neg hopt] at hb
  refine .inr ?_
  -- the builders of the shapes with an element
  have elem : ∀ {e : TypeId}, e ∈ typeChildren U t → l ∈ [⟨e, XDRTag.next tag⟩] →
      l.type ∈ typeChildren U t ∧ l.tag = XDRTag.next tag := fun he h => by
    obtain rfl := List.mem_singleton.mp h
    exact ⟨he, rfl⟩
  split at hb
  · rename_i e hs
    cases hb
    exact (elem (by simp [typeChildren, hs]) h).imp_right .inl
  · cases hb
    exact nomatch h
  · rename_i n e hs
    cases hb
    simp only [makeArrayCodec] at h
    split_ifs at h
    · exact nomatch h
    · exact nomatch h
    · exact (elem (by simp [typeChildren, hs]) h).imp_right .inl
  · rename_i e hs
    cases hb
    simp only [makeSliceCodec] at h
    split at h
    · exact nomatch h
    · split_ifs at h
      · exact nomatch h
      · exact (elem (by simp [typeChildren, hs]) h).imp_right .inl
  · rename_i kt e hs
    cases hb
    simp only [makeMapCodec] at h
    split at h
    · exact nomatch h
    · rcases List.mem_pair.mp h with rfl | rfl
      · exact ⟨by simp [typeChildren, hs], .inr (.inl rfl)⟩
      · exact ⟨by simp [typeChildren, hs], .inl rfl⟩
  · rename_i fs hs
    split_ifs at hb
    · cases hb
      exact nomatch h
    · cases hb
      exact nomatch h
    · obtain ⟨f, hf, m, p, u, hp, hl⟩ := makeStructCodec_lookups hb l h
      have hpf : p ∈ fieldTags U t := by
        simp only [fieldTags, hs, List.mem_flatMap, List.mem_filterMap]
        exact ⟨f, hf, m, by cases m <;> simp, by simp [hp]⟩
      have hft : f.type ∈ typeChildren U t := by
        simp only [typeChildren, hs, List.mem_map]
        exact ⟨f, hf, rfl⟩
      rcases hl with rfl | rfl
      · exact ⟨hft, .inr (.inr ⟨p, hpf, .inl rfl⟩)⟩
      · exact ⟨hft, .inr (.inr ⟨p, hpf, .inr rfl⟩)⟩
  · split_ifs at hb
    · cases hb
      exact nomatch h
    · cases hb
      exact nomatch h
    · split at hb <;> cases hb <;> exact nomatch h

/-- The reachable keys are closed under builds, on a type graph closed under `typeChildren` and a
parsed tag. -/
theorem reachKeys_closed {ts : List TypeId} (hts : ∀ t ∈ ts, ∀ t' ∈ typeChildren U t, t' ∈ ts)
    {tag : XDRTag} (htag : XDRTag.Parsed tag) :
    ∀ k ∈ reachKeys U ts tag, ∀ l ∈ childKeys U w k, l ∈ reachKeys U ts tag := by
  intro k hk l hl
  obtain ⟨ht, p, hp, hkp⟩ := mem_reachKeys.mp hk
  refine mem_reachKeys.mpr ?_
  rcases childKeys_cases hl with ⟨hopt, rfl⟩ | ⟨hlt, hl⟩
  · have hpp : XDRTag.Parsed p := hp.elim (· ▸ htag) fun ⟨_, _, h⟩ => parsed_of_mem_fieldTags h
    exact ⟨ht, p, hp, XDRTag.optTag_mem_noopSuffixes hpp hkp hopt⟩
  refine ⟨hts _ ht _ hlt, ?_⟩
  rcases hl with hl | hl | ⟨q, hq, hl⟩
  · exact ⟨p, hp, hl ▸ XDRTag.next_mem_noopSuffixes hkp⟩
  · exact ⟨p, hp, hl ▸ XDRTag.nil_mem_noopSuffixes p⟩
  · refine ⟨q, .inr ⟨k.type, ht, hq⟩, ?_⟩
    rcases hl with hl | hl
    · exact hl ▸ XDRTag.self_mem_noopSuffixes q
    · exact hl ▸ XDRTag.next_mem_noopSuffixes (XDRTag.self_mem_noopSuffixes q)

end Lookups

/-! ## A potential for one goroutine's calls -/

/-- A build's stages, each followed by the next: a lookup made, the codec stored, stored as
base codec, the placeholder resolved. -/
inductive Stage.Advance : Stage → Stage → Prop
  | lookup (l : Key) (ls : List Key) : Stage.Advance (.building (l :: ls)) (.building ls)
  | store : Stage.Advance (.building []) .storedKnown
  | storeBase : Stage.Advance .storedKnown .storedBase
  | resolve : Stage.Advance .storedBase .resolved

namespace Registry

open Function

variable (e : Env) (K : List Key)

/-- The most lookups one build of a key of `K` makes. -/
def maxLookups : Nat := K.foldr (fun k m => max (childKeys e.U e.w k).length m) 0

theorem length_childKeys_le {k : Key} (hk : k ∈ K) :
    (childKeys e.U e.w k).length ≤ maxLookups e K := by
  induction K with
  | nil => cases hk
  | cons k' K ih =>
    simp only [maxLookups, List.foldr_cons] at ih ⊢
    rcases List.mem_cons.mp hk with rfl | hk
    · exact le_max_left _ _
    · exact (ih hk).trans (le_max_right _ _)

/-- The steps a job has left: five per lookup still to make (the push and the lookup's first
four steps), then store, base-store and resolve. Any other job, or none, ends at its next step. -/
def jobWeight : Option Job → Nat
  | some (.built _ _ (.building ls)) => 5 * ls.length + 4
  | some (.built _ _ .storedKnown) => 3
  | some (.built _ _ .storedBase) => 2
  | _ => 1

/-- The steps a frame has left before it returns, without the lookups it makes. -/
def frameWeight (s : Registry) : Frame → Nat
  | .getCodec _ | .getBase _ => 4
  | .getNew _ => 3
  | .job d => jobWeight (s.jobs d)
  | .register .. => 1

theorem one_le_frameWeight (s : Registry) (f : Frame) : 1 ≤ frameWeight s f := by
  cases f <;> simp only [frameWeight, jobWeight]
  all_goals try split
  all_goals omega

/-- The frames' steps left. -/
def stackWeight (s : Registry) : List Frame → Nat
  | [] => 0
  | f :: fs => frameWeight s f + stackWeight s fs

theorem stackWeight_append (s : Registry) (fs fs' : List Frame) :
    stackWeight s (fs ++ fs') = stackWeight s fs + stackWeight s fs' := by
  induction fs with
  | nil => simp [stackWeight]
  | cons f fs ih => rw [List.cons_append, stackWeight, stackWeight, ih, Nat.add_assoc]

/-- The keys of `K` that hold nothing. -/
def unknown (s : Registry) : Nat := K.countP fun k => (s.known k).isNone

/-- Installing a placeholder at an unknown key of `K` leaves one unknown key fewer. -/
theorem unknown_lt {s s' : Registry} (h : ∀ k, (s'.known k).isNone → (s.known k).isNone)
    {k : Key} (hk : k ∈ K) (h₁ : (s.known k).isNone) (h₂ : (s'.known k).isNone = false) :
    unknown K s' < unknown K s := by
  induction K with
  | nil => cases hk
  | cons k' K ih =>
    have hle : K.countP (fun k => (s'.known k).isNone) ≤ K.countP (fun k => (s.known k).isNone) :=
      List.countP_mono_left fun k _ => h k
    have hk' := h k'
    simp only [unknown, List.countP_cons] at ih ⊢
    rcases List.mem_cons.mp hk with rfl | hk
    · simp only [h₁, h₂, if_true, Bool.false_eq_true, if_false]
      omega
    · have := ih hk
      split_ifs with ha hb hb
      · omega
      · exact absurd (hk' ha) hb
      all_goals omega

variable (g : Nat)

/-- The potential of goroutine `g`'s calls: each unknown key of `K` is worth more than the
steps a build of it adds, and each frame the steps it has left. -/
def potential (s : Registry) : Nat :=
  (5 * maxLookups e K + 2) * unknown K s + stackWeight s (s.calls g)

/-- What the potential needs of a frame: its key is in `K`; a job's number is taken, and a job
still building has a suffix of its key's lookups left. -/
def FrameIn (s : Registry) : Frame → Prop
  | .getCodec k | .getNew k => k ∈ K
  | .getBase t => ⟨t, []⟩ ∈ K
  | .job d => d < s.fresh ∧
      ∀ k c ls, s.jobs d = some (.built k c (.building ls)) → k ∈ K ∧ ls <:+ childKeys e.U e.w k
  | .register .. => True

/-- Every frame of `g` is in `K`. -/
def Tracked (s : Registry) : Prop := ∀ f ∈ s.calls g, FrameIn e K s f

/-- A job left as it was, or moved on one stage. -/
def JobAdvance (j j' : Option Job) : Prop :=
  j' = j ∨ ∃ k c st st', j = some (.built k c st) ∧ j' = some (.built k c st') ∧ st.Advance st'

theorem JobAdvance.weight_le {j j' : Option Job} (h : JobAdvance j j') :
    jobWeight j' ≤ jobWeight j := by
  rcases h with rfl | ⟨k, c, st, st', rfl, rfl, hst⟩
  · exact le_rfl
  · cases hst <;> simp only [jobWeight, List.length_cons] <;> omega

theorem JobAdvance.building {j j' : Option Job} (h : JobAdvance j j') {k : Key} {c : Codec}
    {ls : List Key} (hj : j' = some (.built k c (.building ls))) :
    ∃ ls', j = some (.built k c (.building ls')) ∧ ls <:+ ls' := by
  rcases h with rfl | ⟨k', c', st, st', rfl, rfl, hst⟩
  · exact ⟨ls, hj, List.suffix_refl ls⟩
  · cases hst <;> cases hj
    exact ⟨_, rfl, List.suffix_cons _ _⟩

theorem JobAdvance.key {j j' : Option Job} (h : JobAdvance j j') :
    j'.map Job.key = j.map Job.key := by
  rcases h with rfl | ⟨k, c, st, st', rfl, rfl, -⟩ <;> rfl

/-- Moving job `d` on one stage moves every job on, or leaves it. -/
theorem JobAdvance.update {jobs : Nat → Option Job} {d : Nat} {k : Key} {c : Codec}
    {st st' : Stage} (h : jobs d = some (.built k c st)) (hst : st.Advance st') (d' : Nat) :
    JobAdvance (jobs d') (Function.update jobs d (some (.built k c st')) d') := by
  by_cases hd : d' = d
  · subst hd
    rw [Function.update_same]
    exact .inr ⟨k, c, st, st', h, rfl, hst⟩
  · rw [Function.update_noteq hd]
    exact .inl rfl

/-- What every step of every goroutine does to what a potential counts: `knownCodecs` only gains
entries, each job below `fresh` only moves on, and `fresh` only grows. -/
structure Grows (s s' : Registry) : Prop where
  known : ∀ k, (s'.known k).isNone → (s.known k).isNone
  jobs : ∀ d < s.fresh, JobAdvance (s.jobs d) (s'.jobs d)
  fresh_le : s.fresh ≤ s'.fresh

/-- What a step of `g` does to what the potential counts: it grows the registry, and a new
number goes to a job for a key of `K` that held nothing and holds the job's placeholder now. -/
structure Shrinks (s s' : Registry) : Prop where
  known : ∀ k, (s'.known k).isNone → (s.known k).isNone
  jobs : ∀ d < s.fresh, JobAdvance (s.jobs d) (s'.jobs d)
  fresh : s'.fresh = s.fresh ∨ s'.fresh = s.fresh + 1 ∧
    ∃ j, s'.jobs s.fresh = some j ∧ j.key ∈ K ∧ (s.known j.key).isNone ∧ (s'.known j.key).isSome

/-- What a step of `g` gives the termination argument: it shrinks the registry, keeps `g`
tracked and lowers the potential. -/
structure Progress (s s' : Registry) : Prop where
  shrinks : Shrinks K s s'
  tracked : Tracked e K g s'
  lt : potential e K g s' < potential e K g s

section Shrinks

variable {e K g} {s s' : Registry}

theorem Shrinks.grows (h : Shrinks K s s') : Grows s s' :=
  ⟨h.known, h.jobs, by rcases h.fresh with h | ⟨h, -⟩ <;> omega⟩

theorem Grows.isSome (h : Grows s s') {k : Key} (hk : (s.known k).isSome) :
    (s'.known k).isSome := by
  cases hk' : s'.known k with
  | none =>
    have := h.known k (by simp [hk'])
    cases hs : s.known k <;> simp_all
  | some _ => rfl

theorem Shrinks.of_eq (hk : s'.known = s.known) (hf : s'.fresh = s.fresh) (hj : s'.jobs = s.jobs) :
    Shrinks K s s' :=
  ⟨fun _ h => hk ▸ h, fun _ _ => .inl (hj ▸ rfl), .inl hf⟩

/-- A key given an entry has one. -/
theorem isNone_update_some {k k' : Key} {x : Entry} {known : Key → Option Entry}
    (h : (update known k (some x) k').isNone) : (known k').isNone := by
  by_cases hk : k' = k
  · subst hk; simp at h
  · rwa [update_noteq hk] at h

/-- An entry stored at a key. -/
theorem Shrinks.store {k : Key} {x : Entry} (hk : s'.known = update s.known k (some x))
    (hf : s'.fresh = s.fresh) (hj : s'.jobs = s.jobs) : Shrinks K s s' :=
  ⟨fun _ h => isNone_update_some (hk ▸ h), fun _ _ => .inl (hj ▸ rfl), .inl hf⟩

/-- `LoadOrStore` of a fresh placeholder at a key of `K` that held nothing, with its job recorded
under the fresh number. -/
theorem Shrinks.install {k : Key} {x : Entry} {j : Job} (hK : k ∈ K) (hn : s.known k = none)
    (hk : s'.known = update s.known k (some x)) (hf : s'.fresh = s.fresh + 1)
    (hj : s'.jobs = update s.jobs s.fresh (some j)) (hjk : j.key = k) : Shrinks K s s' where
  known _ h := isNone_update_some (hk ▸ h)
  jobs d hd := .inl (by rw [hj, update_noteq hd.ne])
  fresh := .inr ⟨hf, j, by rw [hj, update_same], hjk ▸ hK, by simp [hjk, hn], by simp [hk, hjk]⟩

/-- A job moved on one stage. -/
theorem Shrinks.job {d : Nat} {k : Key} {c : Codec} {st st' : Stage}
    (hd : s.jobs d = some (.built k c st)) (hst : st.Advance st')
    (hk : ∀ k, (s'.known k).isNone → (s.known k).isNone) (hf : s'.fresh = s.fresh)
    (hj : s'.jobs = update s.jobs d (some (.built k c st'))) : Shrinks K s s' where
  known := hk
  jobs d' _ := hj ▸ JobAdvance.update hd hst d'
  fresh := .inl hf

theorem Grows.unknown_le (h : Grows s s') : unknown K s' ≤ unknown K s :=
  List.countP_mono_left fun k _ hk => h.known k hk

theorem Grows.frameIn (h : Grows s s') {f : Frame} (hf : FrameIn e K s f) :
    FrameIn e K s' f := by
  cases f with
  | job d =>
    obtain ⟨hd, hb⟩ := hf
    refine ⟨hd.trans_le h.fresh_le, fun k c ls hj => ?_⟩
    obtain ⟨ls', hj', hs⟩ := (h.jobs d hd).building hj
    obtain ⟨hk, hls⟩ := hb k c ls' hj'
    exact ⟨hk, hs.trans hls⟩
  | _ => exact hf

theorem Grows.stackWeight_le (h : Grows s s') :
    ∀ {fs : List Frame}, (∀ f ∈ fs, FrameIn e K s f) → stackWeight s' fs ≤ stackWeight s fs
  | [], _ => le_rfl
  | f :: fs, hfs => by
    have hf : frameWeight s' f ≤ frameWeight s f := by
      cases f with
      | job d => exact (h.jobs d (hfs _ (.head _)).1).weight_le
      | _ => exact le_rfl
    have := h.stackWeight_le fun f' hf' => hfs f' (.tail _ hf')
    simp only [stackWeight] at this ⊢
    omega

/-- A step that replaces `g`'s top frame `f` by the frames `new`: `g` stays tracked, and the
potential drops when the new frames and the unknown keys weigh less than `f` did. -/
theorem Shrinks.replace (h : Shrinks K s s') (ht : Tracked e K g s) {f : Frame}
    {rest : List Frame} (hg : s.calls g = f :: rest) (new : List Frame)
    (hc : s'.calls g = new ++ rest) (hnew : ∀ f' ∈ new, FrameIn e K s' f')
    (hw : (5 * maxLookups e K + 2) * unknown K s' + stackWeight s' new <
      (5 * maxLookups e K + 2) * unknown K s + frameWeight s f) :
    Progress e K g s s' := by
  have hrest : ∀ f' ∈ rest, FrameIn e K s f' := fun f' hf' => ht f' (hg ▸ .tail _ hf')
  refine ⟨h, fun f' hf' => ?_, ?_⟩
  · rw [hc] at hf'
    rcases List.mem_append.mp hf' with hf' | hf'
    · exact hnew f' hf'
    · exact h.grows.frameIn (hrest f' hf')
  · have := h.grows.stackWeight_le hrest
    simp only [potential, hc, hg, stackWeight_append, stackWeight] at this hw ⊢
    omega

/-- The same, when the new frames alone weigh less than `f`. -/
theorem Shrinks.replace_le (h : Shrinks K s s') (ht : Tracked e K g s) {f : Frame}
    {rest : List Frame} (hg : s.calls g = f :: rest) (new : List Frame)
    (hc : s'.calls g = new ++ rest) (hnew : ∀ f' ∈ new, FrameIn e K s' f')
    (hw : stackWeight s' new < frameWeight s f) : Progress e K g s s' :=
  h.replace ht hg new hc hnew (by
    have := Nat.mul_le_mul_left (5 * maxLookups e K + 2) (h.grows.unknown_le (K := K))
    omega)

/-- The same, when the step installs a placeholder at an unknown key of `K` and its new frames
weigh no more than `f` and a build's lookups. -/
theorem Shrinks.replace_lt (h : Shrinks K s s') (ht : Tracked e K g s) {f : Frame}
    {rest : List Frame} (hg : s.calls g = f :: rest) (new : List Frame)
    (hc : s'.calls g = new ++ rest) (hnew : ∀ f' ∈ new, FrameIn e K s' f')
    (hU : unknown K s' < unknown K s)
    (hw : stackWeight s' new ≤ frameWeight s f + 5 * maxLookups e K + 1) : Progress e K g s s' :=
  h.replace ht hg new hc hnew (by
    have := Nat.mul_le_mul_left (5 * maxLookups e K + 2) (Nat.succ_le_of_lt hU)
    rw [Nat.mul_succ] at this
    omega)

/-- A panic empties `g`'s stack. -/
theorem Shrinks.abort (h : Shrinks K s s') {f : Frame} {rest : List Frame}
    (hg : s.calls g = f :: rest) (hc : s'.calls g = []) : Progress e K g s s' := by
  refine ⟨h, fun f' hf' => by simp [hc] at hf', ?_⟩
  have := Nat.mul_le_mul_left (5 * maxLookups e K + 2) (h.grows.unknown_le (K := K))
  have := one_le_frameWeight s f
  simp only [potential, hc, hg, stackWeight]
  omega

end Shrinks

section Step

variable {e K g}

/-- One step of `g`'s top call shrinks the registry, keeps `g` tracked and lowers the potential,
on a key set closed under builds. -/
theorem stepFrame_progress (hK : ∀ k ∈ K, ∀ l ∈ childKeys e.U e.w k, l ∈ K) {s : Registry}
    (ht : Tracked e K g s) {f : Frame} {rest : List Frame} (hg : s.calls g = f :: rest) :
    Progress e K g s (stepFrame e s g f) := by
  have hf : FrameIn e K s f := ht f (hg ▸ .head _)
  have pos := one_le_frameWeight s f
  -- a lookup that found its key returns it, or panics converting it
  have found_step : ∀ k x, Progress e K g s (found e s g k x) := by
    intro k x
    unfold found
    split
    · exact Shrinks.replace_le (.of_eq rfl rfl rfl) ht hg [] (by simp [ret, hg])
        (by simp) (by simpa [stackWeight] using pos)
    · exact Shrinks.abort (.of_eq rfl rfl rfl) hg (by simp [abort])
  -- the top frame goes on as `f'`, with fewer steps left
  have become_step : ∀ f', FrameIn e K s f' → frameWeight s f' < frameWeight s f →
      Progress e K g s (s.become g f') :=
    fun f' hf' hw => Shrinks.replace_le (.of_eq rfl rfl rfl) ht hg [f']
      (by simp [become, hg]) (by simpa using hf') (by simpa [stackWeight] using hw)
  cases f with
  | getCodec k =>
    simp only [stepFrame]
    split
    · exact found_step _ _
    · exact become_step (.getNew k) hf (by simp [frameWeight])
  | getBase t =>
    simp only [stepFrame]
    split
    · exact found_step _ _
    · exact become_step (.getNew ⟨t, []⟩) hf (by simp [frameWeight])
  | getNew k =>
    simp only [stepFrame]
    split
    · exact found_step _ _
    · rename_i hk
      have fewer : ∀ {s' : Registry}, s'.known = update s.known k (some (.deferred s.fresh)) →
          unknown K s' < unknown K s := fun h =>
        unknown_lt K (fun k' h' => isNone_update_some (h ▸ h')) hf (by simp [hk]) (by simp [h])
      split
      · exact Shrinks.abort (.install hf hk rfl rfl rfl rfl) hg (by simp [abort])
      · rename_i b hb
        have hlen := length_childKeys_le e K hf
        simp only [childKeys, hb] at hlen
        refine Shrinks.replace_lt (.install hf hk rfl rfl rfl rfl) ht hg [.job s.fresh]
          (by simp [become, hg]) ?_ (fewer rfl) ?_
        · simp only [List.mem_singleton, forall_eq]
          refine ⟨by simp [become], fun k' c ls h => ?_⟩
          simp only [become, update_same, Option.some.injEq, Job.built.injEq,
            Stage.building.injEq] at h
          obtain ⟨rfl, -, rfl⟩ := h
          exact ⟨hf, by simp only [childKeys, hb]; exact List.suffix_refl _⟩
        · simp only [stackWeight, frameWeight, jobWeight, become, update_same]
          omega
  | job d =>
    obtain ⟨hd, hb⟩ := hf
    simp only [stepFrame]
    split
    · -- the next lookup of the build
      rename_i k c l ls hj
      obtain ⟨hk, hls⟩ := hb k c (l :: ls) hj
      refine Shrinks.replace_le (.job hj (.lookup l ls) (fun _ h => h) rfl rfl) ht hg
        [.getCodec l, .job d] (by simp [push, hg]) ?_ ?_
      · simp only [List.mem_cons, List.mem_singleton, forall_eq_or_imp, forall_eq,
          List.not_mem_nil, or_false]
        refine ⟨hK k hk l (hls.subset (.head _)), by simpa using hd, fun k' c' ls' h => ?_⟩
        simp only [update_same, Option.some.injEq, Job.built.injEq, Stage.building.injEq] at h
        obtain ⟨rfl, -, rfl⟩ := h
        exact ⟨hk, (List.suffix_cons l ls).trans hls⟩
      · simp [stackWeight, frameWeight, jobWeight, hj]
        omega
    · -- `knownCodecs.Store(xt, cc)`
      rename_i k c hj
      refine Shrinks.replace_le (.job hj .store (fun _ h => isNone_update_some h) rfl rfl) ht hg
        [.job d] (by simpa using hg) ?_ ?_
      · simp only [List.mem_singleton, forall_eq]
        exact ⟨hd, by simp⟩
      · simp [stackWeight, frameWeight, jobWeight, hj]
    · -- `knownBaseCodecs.Store(t, cc)`
      rename_i k c hj
      refine Shrinks.replace_le (.job hj .storeBase (fun _ h => h) rfl rfl) ht hg [.job d]
        (by simpa using hg) ?_ ?_
      · simp only [List.mem_singleton, forall_eq]
        exact ⟨hd, by simp⟩
      · simp [stackWeight, frameWeight, jobWeight, hj]
    · -- `dc.resolve(cc)`, and the call returns
      rename_i k c hj
      exact Shrinks.replace_le (.job hj .resolve (fun _ h => h) rfl rfl) ht hg []
        (by simp [ret, hg]) (by simp) (by simpa [stackWeight] using pos)
    · exact Shrinks.replace_le (.of_eq rfl rfl rfl) ht hg [] (by simp [pop, hg]) (by simp)
        (by simpa [stackWeight] using pos)
  | register t c =>
    simp only [stepFrame]
    split
    · exact Shrinks.abort (.of_eq rfl rfl rfl) hg (by simp [abort])
    · split
      · exact Shrinks.abort (.of_eq rfl rfl rfl) hg (by simp [abort])
      · split
        · exact Shrinks.replace_le (.store rfl rfl rfl) ht hg [] (by simp [pop, hg]) (by simp)
            (by simpa [stackWeight] using pos)
        · split
          · exact Shrinks.abort (.of_eq rfl rfl rfl) hg (by simp [abort])
          · split
            · exact Shrinks.replace_le (.of_eq rfl rfl rfl) ht hg [] (by simp [pop, hg])
                (by simp) (by simpa [stackWeight] using pos)
            · exact Shrinks.abort (.of_eq rfl rfl rfl) hg (by simp [abort])

end Step

/-! ## Whole runs of the calling goroutine -/

/-- What a chain of shrinking steps from `s₀` did with the numbers it gave out: each went to a
job for a key of `K` that held nothing in `s₀` and holds something now, no two to one key. -/
structure NewJobs (s₀ s : Registry) : Prop where
  known : ∀ k, (s.known k).isNone → (s₀.known k).isNone
  fresh_le : s₀.fresh ≤ s.fresh
  jobs : ∀ d, s₀.fresh ≤ d → d < s.fresh →
    ∃ j, s.jobs d = some j ∧ j.key ∈ K ∧ (s₀.known j.key).isNone ∧ (s.known j.key).isSome
  inj : ∀ d d', s₀.fresh ≤ d → d < s.fresh → s₀.fresh ≤ d' → d' < s.fresh →
    (s.jobs d).map Job.key = (s.jobs d').map Job.key → d = d'

section Run

variable {e K g}

variable {s₀ s s' : Registry}

theorem NewJobs.refl (s₀ : Registry) : NewJobs K s₀ s₀ :=
  ⟨fun _ h => h, le_rfl, fun _ h₁ h₂ => absurd h₂ (not_lt.mpr h₁),
    fun _ _ h₁ h₂ => absurd h₂ (not_lt.mpr h₁)⟩

theorem NewJobs.step (hn : NewJobs K s₀ s) (h : Shrinks K s s') : NewJobs K s₀ s' := by
  -- a number given out before the step keeps its job's key
  have old : ∀ d, s₀.fresh ≤ d → d < s.fresh → ∃ j, s'.jobs d = some j ∧ j.key ∈ K ∧
      (s₀.known j.key).isNone ∧ (s.known j.key).isSome := by
    intro d h₁ h₂
    obtain ⟨j, hj, hjK, hjn, hjs⟩ := hn.jobs d h₁ h₂
    obtain ⟨j', hj', hk⟩ := Option.map_eq_some'.mp ((h.jobs d h₂).key.trans (by rw [hj]; rfl))
    exact ⟨j', hj', hk ▸ hjK, hk ▸ hjn, hk ▸ hjs⟩
  have known : ∀ k, (s'.known k).isNone → (s₀.known k).isNone :=
    fun k hk => hn.known k (h.known k hk)
  have same : ∀ d d', d < s.fresh → d' < s.fresh →
      (s'.jobs d).map Job.key = (s'.jobs d').map Job.key →
        (s.jobs d).map Job.key = (s.jobs d').map Job.key := fun d d' h₂ h₄ he => by
    rwa [← (h.jobs d h₂).key, ← (h.jobs d' h₄).key]
  rcases h.fresh with hf | ⟨hf, j, hj, hjK, hjn, hjs⟩
  · refine ⟨known, hf ▸ hn.fresh_le, fun d h₁ h₂ => ?_, fun d d' h₁ h₂ h₃ h₄ he => ?_⟩
    · obtain ⟨j, hj, hjK, hjn, hjs⟩ := old d h₁ (hf ▸ h₂)
      exact ⟨j, hj, hjK, hjn, h.grows.isSome hjs⟩
    · exact hn.inj d d' h₁ (hf ▸ h₂) h₃ (hf ▸ h₄) (same d d' (hf ▸ h₂) (hf ▸ h₄) he)
  -- the new number's key held nothing before the step, unlike every older job's key
  have hne : ∀ d, s₀.fresh ≤ d → d < s.fresh → (s'.jobs d).map Job.key ≠ some j.key := by
    intro d h₁ h₂ he
    obtain ⟨jd, hjd, -, -, hjds⟩ := old d h₁ h₂
    rw [hjd, Option.map_some', Option.some_inj] at he
    rw [he] at hjds
    simp [Option.isNone_iff_eq_none.mp hjn] at hjds
  have hnew : (s'.jobs s.fresh).map Job.key = some j.key := by rw [hj]; rfl
  refine ⟨known, hn.fresh_le.trans (hf ▸ Nat.le_succ _), fun d h₁ h₂ => ?_,
    fun d d' h₁ h₂ h₃ h₄ he => ?_⟩
  · rcases Nat.lt_succ_iff_lt_or_eq.mp (hf ▸ h₂) with h₂ | rfl
    · obtain ⟨j, hj, hjK, hjn, hjs⟩ := old d h₁ h₂
      exact ⟨j, hj, hjK, hjn, h.grows.isSome hjs⟩
    · exact ⟨j, hj, hjK, hn.known _ hjn, hjs⟩
  · rcases Nat.lt_succ_iff_lt_or_eq.mp (hf ▸ h₂) with h₂ | rfl <;>
      rcases Nat.lt_succ_iff_lt_or_eq.mp (hf ▸ h₄) with h₄ | rfl
    · exact hn.inj d d' h₁ h₂ h₃ h₄ (same d d' h₂ h₄ he)
    · exact absurd (he.trans hnew) (hne d h₁ h₂)
    · exact absurd (he.symm.trans hnew) (hne d' h₃ h₄)
    · rfl

end Run

/-! ## The call returns -/

/-- The calls of a lookup, under the number `n`: no `RegisterCodecReflect`, and each job
numbered below `n` and above every job under it. -/
def Nested : Nat → List Frame → Prop
  | _, [] => True
  | n, .getCodec _ :: fs | n, .getBase _ :: fs | n, .getNew _ :: fs => Nested n fs
  | n, .job d :: fs => d < n ∧ Nested d fs
  | _, .register .. :: _ => False

theorem Nested.mono {m : Nat} {fs : List Frame} :
    ∀ {n : Nat}, Nested n fs → n ≤ m → Nested m fs := by
  induction fs with
  | nil => intros; trivial
  | cons f fs ih =>
    intro n h hm
    cases f with
    | job d => exact ⟨h.1.trans_le hm, h.2⟩
    | register => exact h.elim
    | _ => exact ih h hm

theorem Nested.tail {n : Nat} {f : Frame} {fs : List Frame} (h : Nested n (f :: fs)) :
    Nested n fs := by
  cases f with
  | job d => exact h.2.mono h.1.le
  | register => exact h.elim
  | _ => exact h

/-- No job of the calls is numbered `n` or above. -/
theorem Nested.job_not_mem {fs : List Frame} : ∀ {n : Nat}, Nested n fs → ∀ {d}, n ≤ d →
    Frame.job d ∉ fs := by
  induction fs with
  | nil => intros; exact List.not_mem_nil _
  | cons f fs ih =>
    intro n h d hd hm
    rcases List.mem_cons.mp hm with rfl | hm
    · exact absurd h.1 (by omega)
    · exact ih h.tail hd hm

/-- Storing an entry `xCodec` accepts keeps every stored entry accepted. -/
theorem xcodec_update {n : Bool} {known : Key → Option Entry}
    (h : ∀ k x, known k = some x → x.isXCodec n = true) {k : Key} {x : Entry}
    (hx : x.isXCodec n = true) :
    ∀ k' x', update known k (some x) k' = some x' → x'.isXCodec n = true := by
  intro k' x' h'
  by_cases hk : k' = k
  · subst hk
    rw [update_same, Option.some.injEq] at h'
    exact h' ▸ hx
  · rw [update_noteq hk] at h'
    exact h k' x' h'


/-- A frame that returns its key's codec when it ends: a lookup, or a job that built its codec
and has not resolved it yet (a job past `dc.resolve` returns nothing more). -/
def Returns (s : Registry) : Frame → Prop
  | .job d => ∃ k c st, s.jobs d = some (.built k c st) ∧ st ≠ .resolved
  | .register .. => False
  | _ => True

/-- A frame whose job is as it was returns as it did. -/
theorem returns_congr {s s' : Registry} {b : Frame} (h : ∀ d, b = .job d → s'.jobs d = s.jobs d) :
    (Returns s' b ↔ Returns s b) ∧ frameKey s' b = frameKey s b := by
  cases b <;> simp [Returns, frameKey, h]

/-- `g`'s lookup of `k` from `s₀`, stepped by `g` alone: no panic raised, every entry of
`knownCodecs` one `xCodec` accepts, `g`'s calls nested and none a `getBaseCodec`; and the call is
still at the bottom of `g`'s stack, to return `k`'s codec, or it has returned, the last lookup
returned being of `k`. -/
structure Lookup (k : Key) (s₀ s : Registry) : Prop where
  panics : s.panics = s₀.panics
  xcodec : ∀ l x, s.known l = some x → x.isXCodec e.reflectOnly = true
  nested : Nested s.fresh (s.calls g)
  nobase : ∀ t, Frame.getBase t ∉ s.calls g
  returns : (∃ b, (s.calls g).getLast? = some b ∧ Returns s b ∧ frameKey s b = some k) ∨
    s.calls g = [] ∧ ∃ x, s.log.getLast? = some (k, x)

section Lookup

variable {e K g} {k : Key} {s₀ s s' : Registry} {f : Frame} {rest : List Frame}

/-- A step of `g` that replaces its top call `f` by the calls `new`, raises no panic, keeps the
entries accepted and the calls nested, and leaves the jobs under `f` as they were, keeps the
lookup going, when `new` goes on returning `f`'s key or `f` returned it. -/
theorem Lookup.replace (hl : Lookup e g k s₀ s) (hg : s.calls g = f :: rest)
    (hp : s'.panics = s.panics)
    (hx : ∀ l x, s'.known l = some x → x.isXCodec e.reflectOnly = true) (new : List Frame)
    (hc : s'.calls g = new ++ rest) (hn : Nested s'.fresh (new ++ rest))
    (hnb : ∀ t, Frame.getBase t ∉ new) (hrest : ∀ d, Frame.job d ∈ rest → s'.jobs d = s.jobs d)
    (hnew : Returns s f → ∀ l, frameKey s f = some l →
      (new = [] ∧ ∃ x, s'.log.getLast? = some (l, x)) ∨
        ∃ b, new.getLast? = some b ∧ Returns s' b ∧ frameKey s' b = some l) :
    Lookup e g k s₀ s' := by
  refine ⟨hp.trans hl.panics, hx, hc ▸ hn, fun t ht => ?_, ?_⟩
  · rw [hc, List.mem_append] at ht
    exact ht.elim (hnb t) fun ht => hl.nobase t (hg ▸ .tail _ ht)
  obtain ⟨b, hb, hR, hk⟩ :
      ∃ b, (f :: rest).getLast? = some b ∧ Returns s b ∧ frameKey s b = some k := by
    rcases hl.returns with h | ⟨h, -⟩
    · rwa [hg] at h
    · simp [hg] at h
  rw [hc]
  cases rest with
  | nil =>
    obtain rfl : f = b := Option.some.inj hb
    rcases hnew hR k hk with ⟨rfl, hlog⟩ | ⟨b', hb', hR', hk'⟩
    · exact .inr ⟨rfl, hlog⟩
    · exact .inl ⟨b', by simpa using hb', hR', hk'⟩
  | cons r rs =>
    rw [List.getLast?_cons_cons] at hb
    -- the bottom frame is under `f`, and its job is as it was
    have hkeep : (Returns s' b ↔ Returns s b) ∧ frameKey s' b = frameKey s b := returns_congr fun d hd =>
      hrest d (hd ▸ List.mem_of_getLast?_eq_some hb)
    exact .inl ⟨b, by simp [hb], hkeep.1.mpr hR, hkeep.2.trans hk⟩

/-- A frame that loads `x` at `l` and returns it. -/
theorem Lookup.loaded (hl : Lookup e g k s₀ s) (hg : s.calls g = f :: rest) {l : Key} {x : Entry}
    (hx : s.known l = some x) (hf : frameKey s f = some l) : Lookup e g k s₀ (found e s g l x) := by
  rw [found, if_pos (hl.xcodec l x hx)]
  have hn : Nested s.fresh rest := (hg ▸ hl.nested).tail
  refine hl.replace hg rfl hl.xcodec [] (by simp [ret, hg]) (by simpa [ret, hg] using hn) nofun
    (fun _ _ => rfl) fun _ l' hl' => .inl ⟨rfl, x, ?_⟩
  rw [hf, Option.some_inj] at hl'
  simp [ret, hl']

/-- Every step of `g`, on a key set none of whose builds panics, keeps `g`'s lookup going or
returns it. -/
theorem Lookup.stepFrame (hb : ∀ l ∈ K, (buildCodec e.U e.w l).isOk = true)
    (ht : Tracked e K g s) (hl : Lookup e g k s₀ s) (hg : s.calls g = f :: rest) :
    Lookup e g k s₀ (stepFrame e s g f) := by
  have hnf : Nested s.fresh (f :: rest) := hg ▸ hl.nested
  have hn : Nested s.fresh rest := hnf.tail
  cases f with
  | getCodec l =>
    cases hk : s.known l with
    | some x =>
      simp only [stepFrame, hk]
      exact hl.loaded hg hk rfl
    | none =>
      simp only [stepFrame, hk]
      exact hl.replace hg rfl hl.xcodec [.getNew l] (by simp [become, hg])
        (by simpa [become, hg, Nested] using hn) (by simp) (fun _ _ => rfl)
        fun _ l' hl' => .inr ⟨_, rfl, trivial, hl'⟩
  | getBase t => exact absurd (hg ▸ .head _) (hl.nobase t)
  | getNew l =>
    cases hk : s.known l with
    | some x =>
      simp only [stepFrame, hk]
      exact hl.loaded hg hk rfl
    | none =>
      -- `l` is in the key set, so its build does not panic
      obtain ⟨b, hbl⟩ : ∃ b, buildCodec e.U e.w l = .ok b := by
        have hlK : FrameIn e K s (.getNew l) := ht _ (hg ▸ .head _)
        have := hb l hlK
        revert this
        cases buildCodec e.U e.w l <;> simp [Except.isOk, Except.toBool]
      simp only [stepFrame, hk, hbl]
      refine hl.replace hg rfl (xcodec_update hl.xcodec rfl) [.job s.fresh]
        (by simp [become, hg]) ⟨by simp [become], by simpa [become, hg] using hn⟩ (by simp)
        (fun d hd => update_noteq (by rintro rfl; exact hn.job_not_mem le_rfl hd) _ _)
        fun _ l' hl' => .inr ⟨_, rfl, ⟨l, b.codec, .building b.lookups, by simp [become], nofun⟩, ?_⟩
      simpa [frameKey, become] using hl'
  | job d =>
    -- the jobs under `d` are numbered below it
    have hrest : ∀ (j : Job) d', Frame.job d' ∈ rest →
        update s.jobs d (some j) d' = s.jobs d' :=
      fun _ d' hd' => update_noteq (by rintro rfl; exact hnf.2.job_not_mem le_rfl hd') _ _
    -- a job that does not return its key is popped
    have pop_step : ¬ Returns s (.job d) → Lookup e g k s₀ (s.pop g) := fun hR =>
      hl.replace hg rfl hl.xcodec [] (by simp [pop, hg]) (by simpa [pop, hg] using hn) nofun
        (fun _ _ => rfl) fun h => absurd h hR
    cases hj : s.jobs d with
    | none =>
      simp only [stepFrame, hj]
      exact pop_step (by simp [Returns, hj])
    | some j =>
      cases j with
      | panicked l m =>
        simp only [stepFrame, hj]
        exact pop_step (by simp [Returns, hj])
      | built l c st =>
        have hkey : ∀ l', frameKey s (.job d) = some l' → l' = l := by simp [frameKey, hj, Job.key]
        -- moved on to a stage before `dc.resolve`, the job still returns its key
        have goes_on : ∀ {s' : Registry} (st' : Stage), st' ≠ .resolved →
            s'.jobs d = some (.built l c st') → ∀ l', frameKey s (.job d) = some l' →
              Returns s' (.job d) ∧ frameKey s' (.job d) = some l' := fun st' hst hj' l' hl' =>
          ⟨⟨l, c, st', hj', hst⟩, by simp [frameKey, hj', Job.key, hkey l' hl']⟩
        cases st with
        | building ls =>
          cases ls with
          | cons l' ls =>
            simp only [stepFrame, hj]
            exact hl.replace hg rfl hl.xcodec [.getCodec l', .job d] (by simp [push, hg])
              (by simpa [push, hg, Nested] using hnf) (by simp) (hrest _)
              fun _ l'' hl'' => .inr ⟨_, rfl, goes_on (.building ls) nofun (by simp) l'' hl''⟩
          | nil =>
            simp only [stepFrame, hj]
            exact hl.replace hg rfl (xcodec_update hl.xcodec rfl) [.job d] (by simpa using hg)
              (by simpa using hnf) (by simp) (hrest _)
              fun _ l'' hl'' => .inr ⟨_, rfl, goes_on .storedKnown nofun (by simp) l'' hl''⟩
        | storedKnown =>
          simp only [stepFrame, hj]
          exact hl.replace hg rfl hl.xcodec [.job d] (by simpa using hg) (by simpa using hnf)
            (by simp) (hrest _)
            fun _ l'' hl'' => .inr ⟨_, rfl, goes_on .storedBase nofun (by simp) l'' hl''⟩
        | storedBase =>
          simp only [stepFrame, hj]
          exact hl.replace hg rfl hl.xcodec [] (by simp [ret, hg]) (by simpa [ret, hg] using hn)
            nofun (hrest _) fun _ l'' hl'' => .inl ⟨rfl, .built c, by simp [ret, hkey l'' hl'']⟩
        | resolved =>
          simp only [stepFrame, hj]
          exact pop_step (by simp [Returns, hj])
  | register t c => exact hnf.elim

end Lookup

/-- The call `getCodec k` on an idle goroutine `g`: `g` tracked on a key set holding `k`, with
a potential no more than the bound. -/
theorem getCodec_start {s : Registry} {g : Nat} (hg : s.calls g = []) {K : List Key} {k : Key}
    (hkK : k ∈ K) :
    exec e s (.call g (.getCodec k)) = s.push g (.getCodec k) ∧
      Tracked e K g (s.push g (.getCodec k)) ∧
      potential e K g (s.push g (.getCodec k)) ≤ (5 * maxLookups e K + 2) * K.length + 4 := by
  refine ⟨by simp [exec, hg, Op.frame], fun f hf => ?_, ?_⟩
  · simp only [push, update_same, hg, List.mem_singleton] at hf
    subst hf
    exact hkK
  · have := Nat.mul_le_mul_left (5 * maxLookups e K + 2) (List.countP_le_length (fun k =>
      ((s.push g (.getCodec k)).known k).isNone) (l := K))
    simp only [potential, unknown, push, update_same, hg, stackWeight, frameWeight] at this ⊢
    omega

/-- `type Node struct { V int32; Next *Node }`: a list node, recursive through a pointer. -/
def nodeProgram : Universe where
  info
    | 0 => ⟨.struct [⟨"V", 1, true, []⟩, ⟨"Next", 2, true, []⟩], "Node", false, .none⟩
    | 1 => ⟨.scalar .int32, "int32", true, .none⟩
    | 2 => ⟨.ptr 0, "", false, .none⟩
    | _ => TypeInfo.invalid
  zero
    | 0 => .struct [.int 0, .ptr none]
    | 1 => .int 0
    | 2 => .ptr none
    | _ => .ref true
  zero_eq t := by rcases t with _ | _ | _ | t <;> rfl
  marshalXDR _ _ := .ok []
  unmarshalXDR _ v inp := .ok (v, inp)


end Registry

end OncXdr
