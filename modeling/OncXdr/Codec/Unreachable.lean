import OncXdr.Codec.OptLayers

/-!
# OncXdr.Codec.Unreachable — the builder's guards, and the union's nil arm

`makeStructCodec` panics in four places. Three guard states the tag parser is meant to rule
out: an unskipped field whose union verdict is still open, a union whose first field is not its
switch, and a verdict that is neither. The fourth is the switch gap of `TagAgreement`: a switch
kind `ParseTag` admits and the builder refuses. The first part shows that the gap is the only
way `buildCodec` panics, and says exactly when it does: the three guards never fire.

A union's arm is `bodyFields[caseField]`, and `makeStructCodec` fills a field's entry before it
registers the field's case values or its `default`. An arm with no entry would be a method call
through a nil codec. The second part carries that order through the arm loop, and from it
shows that `Encode` and `Decode` never make such a call, for every program, build, type, value
and stream. The proof follows every codec call, since a panic in a child is the parent's too.
-/

namespace OncXdr

open Text XDRTag

/-! ## `ParseTag` with the verdict open -/

section Verdict

variable (U : Universe)

/-- A field `ParseTag` marks skipped: its tag parses, with the verdict open, to a `Skip` tag. -/
def skipped (g : Field) : Bool :=
  match parseTag U g.type g.tag .maybeInUnion with
  | .ok (tag, _) => XDRTag.kind tag == XDRTagKind.Skip
  | .error _ => false

variable {U}

/-- With the verdict open, `ParseTag` leaves it open only with the skip tag, and settles it on a
union only with a tag whose first entry is the switch. -/
theorem parseTag_open {t : TypeId} {s : List Char} {tag : XDRTag} {u : IsInUnion}
    (h : parseTag U t s .maybeInUnion = .ok (tag, u)) :
    tag = skipTag ∧ u = .maybeInUnion ∨ u = .notInUnion ∨
      u = .inUnion ∧ XDRTag.kind tag = XDRTagKind.UnionSwitch := by
  unfold parseTag at h
  by_cases hd : trimSpace s = "-".toList
  · rw [if_pos hd] at h
    cases h
    exact .inl ⟨rfl, rfl⟩
  rw [if_neg hd] at h
  by_cases hu : hasPrefix ((split '/' (trimSpace s)).headD []) "union:".toList = true
  · rw [if_pos hu] at h
    split at h
    · cases h
    rename_i xt u₁ hhead
    -- with the verdict open, `union:switch` is the only union token that parses
    have hsw : xt = ofEntries [TagEntry.unionSwitch] ∧ u₁ = .inUnion := by
      unfold parseUnionHead at hhead
      by_cases hp : (split '/' (trimSpace s)).headD [] = "union:switch".toList
      · rw [if_pos hp, if_neg fun h => h rfl] at hhead
        split at hhead
        · cases hhead
        · cases hhead
          exact ⟨rfl, rfl⟩
      · rw [if_neg hp, if_pos (show IsInUnion.maybeInUnion ≠ .inUnion by decide)] at hhead
        cases hhead
    obtain ⟨rfl, rfl⟩ := hsw
    split at h
    · cases h
    rename_i xt' hlayers
    cases h
    obtain ⟨ls, rfl, -⟩ := parseLayers_fit U hlayers
    refine .inr (.inr ⟨rfl, ?_⟩)
    rw [trimmed_ofEntries, List.singleton_append, trimEntries_cons,
      if_neg fun h => (show XDRTagKind.UnionSwitch ≠ XDRTagKind.Noop by decide) h.2,
      kind_ofEntries_cons]
    rfl
  · rw [if_neg hu, if_neg (show IsInUnion.maybeInUnion ≠ .inUnion by decide)] at h
    split at h
    · cases h
    · cases h
      exact .inr (.inl rfl)

/-- A union verdict comes with the switch's tag. -/
theorem kind_of_parseTag_inUnion {t : TypeId} {s : List Char} {tag : XDRTag}
    (h : parseTag U t s .maybeInUnion = .ok (tag, .inUnion)) :
    XDRTag.kind tag = XDRTagKind.UnionSwitch := by
  rcases parseTag_open h with ⟨-, h'⟩ | h' | ⟨-, hk⟩
  · cases h'
  · cases h'
  · exact hk

variable {t : TypeId}

/-- `classifyFields` never panics: its guard on an open verdict is unreachable. -/
theorem classifyFields_ne_error : ∀ (L : List (Nat × Field)) (m : String),
    classifyFields U t L ≠ .error m
  | [], _ => nofun
  | (_, f) :: rest, m => by
    simp only [classifyFields]
    split
    · exact nofun
    rename_i tag u hp
    split_ifs with hs hu
    · exact classifyFields_ne_error rest m
    · rcases parseTag_open hp with ⟨rfl, -⟩ | rfl | ⟨rfl, -⟩
      · exact absurd rfl hs
      · cases hu
      · cases hu
    · exact nofun

/-- The field `classifyFields` stops at: every field before it is skipped, and its own tag
parses with the verdict settled. -/
theorem classifyFields_first : ∀ {L : List (Nat × Field)} {i : Nat} {f : Field} {tag : XDRTag}
    {u : IsInUnion} {rest : List (Nat × Field)},
    classifyFields U t L = .ok (.ok (some (i, f, tag, u, rest))) →
      ∃ A, L = A ++ (i, f) :: rest ∧ (∀ x ∈ A, skipped U x.2 = true) ∧
        parseTag U f.type f.tag .maybeInUnion = .ok (tag, u) ∧ u ≠ .maybeInUnion
  | [], _, _, _, _, _, h => nomatch h
  | (i', f') :: L, i, f, tag, u, rest, h => by
    simp only [classifyFields] at h
    split at h
    · cases h
    rename_i tag' u' hp
    split_ifs at h with hs hu
    · obtain ⟨A, rfl, hA, h₁, h₂⟩ := classifyFields_first h
      exact ⟨(i', f') :: A, rfl, List.forall_mem_cons.mpr ⟨by simp [skipped, hp, hs], hA⟩, h₁, h₂⟩
    · cases h
      exact ⟨[], rfl, (fun _ h => nomatch h), hp, hu⟩

/-- `classifyFields` passes over skipped fields. -/
theorem classifyFields_skip : ∀ {A : List (Nat × Field)} (B : List (Nat × Field)),
    (∀ x ∈ A, skipped U x.2 = true) → classifyFields U t (A ++ B) = classifyFields U t B
  | [], _, _ => rfl
  | (_, f) :: A, B, hA => by
    obtain ⟨hf, hA⟩ := List.forall_mem_cons.mp hA
    unfold skipped at hf
    split at hf
    · rename_i tag u hp
      simp only [List.cons_append, classifyFields, hp, beq_iff_eq.mp hf, if_true]
      exact classifyFields_skip B hA
    · cases hf

/-- `makeStructCodec` panics only in the switch gap: at a union whose switch, the first field
not skipped, has a kind the builder refuses. -/
theorem makeStructCodec_panic {fs : List Field} {m : String} (h : makeStructCodec U t fs = .error m) :
    m = "Switch field of union not valid (must be int32, uint32 or bool)" ∧
      ∃ i f tag rest, classifyFields U t fs.enum = .ok (.ok (some (i, f, tag, .inUnion, rest))) ∧
        switchKindOf (U.kind f.type) = none := by
  simp only [makeStructCodec] at h
  split at h
  · rename_i hc
    exact absurd hc (classifyFields_ne_error _ _)
  · cases h
  · cases h
  rename_i i f tag u rest hc
  obtain ⟨-, -, -, hp, hu⟩ := classifyFields_first hc
  cases u with
  | notInUnion => cases h
  | maybeInUnion => exact absurd rfl hu
  | inUnion =>
    -- the tag is the switch's, so the guard on the first element is unreachable
    simp only [kind_of_parseTag_inUnion hp, ne_eq, not_true_eq_false, if_false] at h
    split at h
    · cases h
      exact ⟨rfl, i, f, tag, rest, hc, ‹_›⟩
    · cases h

end Verdict

/-! ## The panics of `buildCodec` -/

section Panics

variable {U : Universe} {w : WordSize}

/-- A panic of `buildCodec` is one of `makeStructCodec`, on an untagged struct with no
`MarshalXDR`. -/
theorem buildCodec_panic_struct {k : Key} {m : String} (h : buildCodec U w k = .error m) :
    ∃ fs, (U.info k.type).shape = .struct fs ∧ k.tag = [] ∧
      (U.info k.type).implementsMarshaler = false ∧ makeStructCodec U k.type fs = .error m := by
  simp only [buildCodec] at h
  by_cases ho : XDRTag.kind k.tag = XDRTagKind.Opt
  · rw [if_pos ho] at h
    cases h
  rw [if_neg ho] at h
  split at h
  · cases h
  · cases h
  · cases h
  · cases h
  · cases h
  · rename_i fs hs
    split_ifs at h with he hm
    exact ⟨fs, hs, by simpa [XDRTag.empty] using he, by simpa using hm, h⟩
  · split_ifs at h
    split at h <;> cases h

/-- `buildCodec` panics exactly in the switch gap: on an untagged struct with no `MarshalXDR`
whose first field not skipped is a union switch of a kind the builder refuses, and always with
that message. The other three panics of `makeStructCodec` never fire. -/
theorem buildCodec_panics_iff {k : Key} {m : String} :
    buildCodec U w k = .error m ↔
      m = "Switch field of union not valid (must be int32, uint32 or bool)" ∧ k.tag = [] ∧
        (U.info k.type).implementsMarshaler = false ∧
        ∃ pre f post tag, (U.info k.type).shape = .struct (pre ++ f :: post) ∧
          (∀ g ∈ pre, skipped U g = true) ∧
          parseTag U f.type f.tag .maybeInUnion = .ok (tag, .inUnion) ∧
          switchKindOf (U.kind f.type) = none := by
  constructor
  · intro h
    obtain ⟨fs, hs, hk, hm, h⟩ := buildCodec_panic_struct h
    obtain ⟨rfl, i, f, tag, rest, hc, hn⟩ := makeStructCodec_panic h
    obtain ⟨A, hA, hskip, hp, -⟩ := classifyFields_first hc
    refine ⟨rfl, hk, hm, A.map Prod.snd, f, rest.map Prod.snd, tag, ?_, ?_, hp, hn⟩
    · rw [hs, ← List.enum_map_snd fs, hA, List.map_append, List.map_cons]
    · simp only [List.mem_map]
      rintro _ ⟨x, hx, rfl⟩
      exact hskip x hx
  · rintro ⟨rfl, hk, hm, pre, f, post, tag, hs, hpre, hp, hn⟩
    have hsw := kind_of_parseTag_inUnion hp
    -- the skipped fields are passed over, and the switch settles the verdict
    have hc : classifyFields U k.type (pre ++ f :: post).enum =
        .ok (.ok (some (pre.length, f, tag, .inUnion, post.enumFrom (pre.length + 1)))) := by
      rw [List.enum_append, classifyFields_skip _ fun x hx => hpre _ (List.snd_mem_of_mem_enum hx)]
      have : XDRTagKind.UnionSwitch ≠ XDRTagKind.Skip := by decide
      simp [classifyFields, hp, hsw, this]
    simp [buildCodec, hk, hs, hm, makeStructCodec, hc, hsw, hn, XDRTagKind.noop_ne.1]

end Panics

/-! ## The arms of a union -/

section Arms

/-- Every arm a union's case table or default names has a body: a field record of that
index. -/
def ArmsHaveBodies (bodies : List FieldRec) (cases : List (Nat × Nat)) (dflt : Option Nat) : Prop :=
  ∀ i, ((∃ v, (v, i) ∈ cases) ∨ dflt = some i) → ∃ f ∈ bodies, f.index = i

/-- A union codec's table names only arms with bodies; no other codec has a table. -/
def Codec.ArmsBound : Codec → Prop
  | .unionCodec _ _ bodies cases dflt _ => ArmsHaveBodies bodies cases dflt
  | _ => True

variable {bodies : List FieldRec} {cases : List (Nat × Nat)} {dflt : Option Nat}

/-- One turn of the arm loop: the body `b` is recorded, and the case values and default it
registers lead to `b`. -/
theorem ArmsHaveBodies.add (h : ArmsHaveBodies bodies cases dflt) (b : FieldRec)
    {cases' : List (Nat × Nat)} {dflt' : Option Nat} (hc : ∀ c ∈ cases', c ∈ cases ∨ c.2 = b.index)
    (hd : ∀ j, dflt' = some j → dflt = some j ∨ j = b.index) :
    ArmsHaveBodies (bodies ++ [b]) cases' dflt' := by
  have new : ∀ j, j = b.index → ∃ f ∈ bodies ++ [b], f.index = j :=
    fun j hj => ⟨b, List.mem_append_right _ (List.mem_singleton_self b), hj.symm⟩
  have old : ∀ j, ((∃ v, (v, j) ∈ cases) ∨ dflt = some j) → ∃ f ∈ bodies ++ [b], f.index = j :=
    fun j hj => let ⟨f, hf, he⟩ := h j hj; ⟨f, List.mem_append_left _ hf, he⟩
  rintro j (⟨v, hv⟩ | hj)
  · exact (hc _ hv).elim (fun hv => old j (.inl ⟨v, hv⟩)) (new j)
  · exact (hd j hj).elim (fun hj => old j (.inr hj)) (new j)

/-- On such a table, the arm a switch value selects is found among the bodies. -/
theorem ArmsHaveBodies.find (h : ArmsHaveBodies bodies cases dflt) {s i : Nat}
    (hi : armIndex cases dflt s = some i) : ∃ f, bodies.find? (·.index = i) = some f := by
  obtain ⟨f, hf, rfl⟩ := h i (by
    unfold armIndex at hi
    split at hi
    · cases hi
      obtain ⟨l₁, l₂, hl, -⟩ := List.lookup_eq_some_iff.mp ‹_›
      exact .inl ⟨s, hl ▸ List.mem_append_right _ (List.mem_cons_self _ _)⟩
    · exact .inr hi)
  exact Option.isSome_iff_exists.mp (List.find?_isSome.mpr ⟨f, hf, by simp⟩)

/-- The case values `addCases` registers all lead to arm `i`. -/
theorem addCases_mem {t i : Nat} : ∀ {vs : List Nat} {cases cases' : List (Nat × Nat)},
    addCases t i vs cases = .ok cases' → ∀ c ∈ cases', c ∈ cases ∨ c.2 = i
  | [], _, _, h => by
    cases h
    exact fun c hc => .inl hc
  | v :: vs, cases, cases', h => by
    simp only [addCases] at h
    split_ifs at h
    intro c hc
    rcases addCases_mem h c hc with hc | hc
    · rcases List.mem_append.mp hc with hc | hc
      · exact .inl hc
      · exact .inr (by rw [List.mem_singleton.mp hc])
    · exact .inr hc

variable {U : Universe} {w : WordSize}

/-- The arm loop of `makeStructCodec` records each arm's body before it registers the arm's
case values or default: the table it ends with names only arms with bodies. -/
theorem unionFields_armsBound {t : TypeId} {name : String} {sw : FieldRec} {kind : SwitchKind} :
    ∀ (L : List (Nat × Field)) (bodies : List FieldRec) (cases : List (Nat × Nat))
      (dflt : Option Nat) (lookups : List Key), ArmsHaveBodies bodies cases dflt →
      (unionFields U t name sw kind L bodies cases dflt lookups).codec.ArmsBound
  | [], _, _, _, _, h => h
  | (i, f) :: rest, bodies, cases, dflt, lookups, h => by
    simp only [unionFields]
    split
    · trivial
    split_ifs with hs hc hd hdd
    · exact unionFields_armsBound rest bodies cases dflt lookups h
    · split
      · trivial
      · exact unionFields_armsBound rest _ _ _ _
          (h.add _ (addCases_mem ‹_›) fun _ hj => .inl hj)
    · trivial
    · exact unionFields_armsBound rest _ _ _ _
        (h.add _ (fun _ hc => .inl hc) fun _ hj => .inr (Option.some.inj hj).symm)
    · exact unionFields_armsBound rest _ _ _ _ (h.add _ (fun _ hc => .inl hc) fun _ hj => .inl hj)

/-- The field loop of a struct makes no union. -/
theorem structFields_armsBound {t : TypeId} {name : String} :
    ∀ (L : List (Nat × Field)) (fields : List FieldRec) (lookups : List Key),
      (structFields U t name L fields lookups).codec.ArmsBound
  | [], _, _ => trivial
  | (_, _) :: rest, fields, lookups => by
    simp only [structFields]
    split
    · trivial
    split_ifs
    · exact structFields_armsBound rest fields lookups
    · exact structFields_armsBound rest _ _

theorem makeStructCodec_armsBound {t : TypeId} {fs : List Field} {b : Built}
    (h : makeStructCodec U t fs = .ok b) : b.codec.ArmsBound := by
  simp only [makeStructCodec] at h
  split at h
  · cases h
  · cases h
    trivial
  · cases h
    trivial
  split at h
  · cases h
    exact structFields_armsBound _ _ _
  · split_ifs at h
    split at h
    · cases h
    · cases h
      -- the loop starts from an empty table
      exact unionFields_armsBound _ _ _ _ _ fun _ hj => hj.elim (fun ⟨_, hv⟩ => nomatch hv) nofun
  · cases h

theorem primitiveCodec_armsBound {kd : Kind} {c : Codec} (h : primitiveCodec kd = some c) :
    c.ArmsBound := by
  cases kd <;> cases h <;> trivial

/-- Every codec `buildCodec` makes has a bound table. -/
theorem buildCodec_armsBound {k : Key} {b : Built} (h : buildCodec U w k = .ok b) :
    b.codec.ArmsBound := by
  simp only [buildCodec] at h
  by_cases ho : XDRTag.kind k.tag = XDRTagKind.Opt
  · rw [if_pos ho] at h
    cases h
    trivial
  rw [if_neg ho] at h
  split at h
  · cases h
    trivial
  · cases h
    simp only [makeStringCodec]
    split_ifs <;> (try split) <;> (try split_ifs) <;> trivial
  · cases h
    simp only [makeArrayCodec]
    split_ifs <;> trivial
  · cases h
    simp only [makeSliceCodec]
    split <;> (try split_ifs) <;> trivial
  · cases h
    simp only [makeMapCodec]
    split <;> trivial
  · split_ifs at h
    · cases h
      trivial
    · cases h
      trivial
    · exact makeStructCodec_armsBound h
  · split_ifs at h
    · cases h
      trivial
    · cases h
      trivial
    · split at h
      · cases h
        exact primitiveCodec_armsBound ‹_›
      · cases h
        trivial

theorem Env.codec_armsBound (e : Env) {k : Key} {c : Codec} (h : e.codec k = .ok c) :
    c.ArmsBound := by
  obtain ⟨b, hb, rfl⟩ := map_eq_ok.mp h
  exact buildCodec_armsBound hb

end Arms

/-! ## No call through a nil arm -/

section NoNil

variable {α β : Type}

/-- A panic text of `reflect` starts `re`; the nil dereference starts `ru`. -/
theorem ne_nilCodecPanic {s : String} (h : s.data.take 2 = ['r', 'e']) : s ≠ nilCodecPanic := by
  rintro rfl
  exact absurd h (by decide)

theorem assignPanic_ne_nil {m : String} {p : Path} {msg : String} (h : p.assignPanic m = some msg) :
    msg ≠ nilCodecPanic := by
  cases p with
  | mem => cases h
  | reflect addr ro =>
    simp only [Path.assignPanic] at h
    split_ifs at h <;> cases h <;> exact ne_nilCodecPanic rfl

theorem ok_ne_nil {a : α} : (Except.ok a : Except Fail α) ≠ .error (.panic nilCodecPanic) := nofun

theorem err_ne_nil {x : XdrError} :
    (Except.error (.err x) : Except Fail α) ≠ .error (.panic nilCodecPanic) := nofun

theorem error_ne_nil {x : Fail} (hx : x ≠ .panic nilCodecPanic) :
    (Except.error x : Except Fail α) ≠ .error (.panic nilCodecPanic) :=
  fun h => hx (Except.error.inj h)

theorem panic_ne_nil {m : String} (hm : m ≠ nilCodecPanic) :
    (Except.error (.panic m) : Except Fail α) ≠ .error (.panic nilCodecPanic) :=
  error_ne_nil fun h => hm (Fail.panic.inj h)

theorem ne_nil_of_eq_error {r : Except Fail α} {x : Fail} (hr : r ≠ .error (.panic nilCodecPanic))
    (h : r = .error x) : x ≠ .panic nilCodecPanic :=
  fun hx => hr (h.trans (hx ▸ rfl))

theorem bind_ne_nil {r : Except Fail α} {f : α → Except Fail β}
    (hr : r ≠ .error (.panic nilCodecPanic)) (hf : ∀ a, f a ≠ .error (.panic nilCodecPanic)) :
    r >>= f ≠ .error (.panic nilCodecPanic) := by
  cases r with
  | error x => exact error_ne_nil (ne_nil_of_eq_error hr rfl)
  | ok a => exact hf a

theorem map_ne_nil {r : Except Fail α} (f : α → β) (hr : r ≠ .error (.panic nilCodecPanic)) :
    r.map f ≠ .error (.panic nilCodecPanic) := by
  cases r with
  | error x => exact error_ne_nil (ne_nil_of_eq_error hr rfl)
  | ok a => exact ok_ne_nil

theorem mapError_err_ne_nil (r : Except XdrError α) :
    r.mapError Fail.err ≠ .error (.panic nilCodecPanic) := by
  cases r <;> exact nofun

/-- A field path added to a failure leaves a panic as it is. -/
theorem withField_ne_nil {x : Fail} (hx : x ≠ .panic nilCodecPanic) (a b : String)
    (n : Option Note) : x.withField a b n ≠ .panic nilCodecPanic := by
  cases x with
  | err e => exact nofun
  | panic m => exact hx
  | outOfFuel => exact nofun

theorem withField_error_ne_nil {r : Except Fail α} {x : Fail}
    (hr : r ≠ .error (.panic nilCodecPanic)) (h : r = .error x) (a b : String) (n : Option Note) :
    (Except.error (x.withField a b n) : Except Fail β) ≠ .error (.panic nilCodecPanic) :=
  error_ne_nil (withField_ne_nil (ne_nil_of_eq_error hr h) a b n)

theorem mapError_withField_ne_nil {r : Except Fail α} (hr : r ≠ .error (.panic nilCodecPanic))
    (a b : String) (n : Option Note) :
    r.mapError (·.withField a b n) ≠ .error (.panic nilCodecPanic) := by
  cases r with
  | error x => exact withField_error_ne_nil hr rfl a b n
  | ok a => exact ok_ne_nil

/-! The codecs' loops fail only as one of their calls does. -/

theorem encodeEach_ne_nil {f : α → Except Fail (List UInt8)}
    (hf : ∀ a, f a ≠ .error (.panic nilCodecPanic)) :
    ∀ xs, encodeEach f xs ≠ .error (.panic nilCodecPanic)
  | [] => ok_ne_nil
  | x :: xs => by
    rw [encodeEach_cons]
    refine bind_ne_nil (hf x) fun _ => bind_ne_nil (encodeEach_ne_nil hf xs) fun _ => ?_
    exact ok_ne_nil

theorem decodeEach_ne_nil {f : Value → Input → Except Fail (Value × Input)}
    (hf : ∀ x inp, f x inp ≠ .error (.panic nilCodecPanic)) :
    ∀ xs inp, decodeEach f xs inp ≠ .error (.panic nilCodecPanic)
  | [], _ => ok_ne_nil
  | x :: xs, inp => by
    simp only [decodeEach]
    refine bind_ne_nil (hf x inp) fun _ => bind_ne_nil (decodeEach_ne_nil hf xs _) fun _ => ?_
    exact ok_ne_nil

theorem decodeFields_ne_nil {f : FieldRec → Value → Input → Except Fail (Value × Input)}
    (hf : ∀ r x inp, f r x inp ≠ .error (.panic nilCodecPanic)) :
    ∀ rs fs inp, decodeFields f rs fs inp ≠ .error (.panic nilCodecPanic)
  | [], _, _ => ok_ne_nil
  | r :: rs, fs, inp => by
    simp only [decodeFields]
    exact bind_ne_nil (hf _ _ _) fun _ => decodeFields_ne_nil hf rs _ _

theorem decodeEntries_ne_nil {fk fv : Input → Except Fail (Value × Input)}
    (hk : ∀ inp, fk inp ≠ .error (.panic nilCodecPanic))
    (hv : ∀ inp, fv inp ≠ .error (.panic nilCodecPanic)) :
    ∀ n acc inp, decodeEntries fk fv n acc inp ≠ .error (.panic nilCodecPanic)
  | 0, _, _ => ok_ne_nil
  | n + 1, acc, inp => by
    simp only [decodeEntries]
    exact bind_ne_nil (hk inp) fun _ => bind_ne_nil (hv _) fun _ => decodeEntries_ne_nil hk hv n _ _

/-! The stream's reads panic only in `make` and in slicing. -/

theorem decodeOpaque_ne_nil (w : WordSize) (maxLen : Nat) (inp : Input) :
    decodeOpaque w maxLen inp ≠ .error (.panic nilCodecPanic) := by
  unfold decodeOpaque
  split
  · exact err_ne_nil
  split_ifs
  · exact ok_ne_nil
  · exact err_ne_nil
  dsimp only
  split_ifs
  · refine panic_ne_nil ?_
    decide
  · exact ok_ne_nil

theorem decodeFixedOpaque_ne_nil (w : WordSize) (n : Nat) (inp : Input) :
    decodeFixedOpaque w n inp ≠ .error (.panic nilCodecPanic) := by
  unfold decodeFixedOpaque
  split
  · exact err_ne_nil
  dsimp only
  split_ifs
  · exact ok_ne_nil
  · refine panic_ne_nil ?_
    decide
  · split
    · exact err_ne_nil
    · exact ok_ne_nil

theorem readAs_ne_nil {γ : Type} (f : γ → Value) (r : Except XdrError (γ × Input)) :
    readAs f r ≠ .error (.panic nilCodecPanic) := by
  unfold readAs
  split
  · exact ok_ne_nil
  · exact err_ne_nil

theorem setAfter_ne_nil (m : String) (p : Path) {r : Except Fail (Value × Input)}
    (hr : r ≠ .error (.panic nilCodecPanic)) : setAfter m p r ≠ .error (.panic nilCodecPanic) := by
  unfold setAfter
  split
  · exact hr
  · exact nofun
  · rename_i msg hm
    exact panic_ne_nil (assignPanic_ne_nil hm)
  · exact hr

/-! The builder's only panic is the switch gap's. -/

theorem buildCodec_error_ne_nil {U : Universe} {w : WordSize} {k : Key} {m : String}
    (h : buildCodec U w k = .error m) : m ≠ nilCodecPanic := by
  obtain ⟨_, _, _, _, hs⟩ := buildCodec_panic_struct h
  rw [(makeStructCodec_panic hs).1]
  decide

theorem codec_error_ne_nil {e : Env} {k : Key} {m : String} (h : e.codec k = .error m) :
    m ≠ nilCodecPanic := by
  unfold Env.codec at h
  cases hb : buildCodec e.U e.w k <;> rw [hb] at h <;> cases h
  exact buildCodec_error_ne_nil hb

end NoNil

section Step

variable (e : Env)

/-- One codec call whose table is bound, with children that never call through a nil codec,
never does either: `Encode`. -/
theorem encodeWith_ne_nil {rec : Key → Path → Value → Except Fail (List UInt8)}
    (hrec : ∀ k p v, rec k p v ≠ .error (.panic nilCodecPanic)) (k : Key) {c : Codec}
    (hc : c.ArmsBound) (p : Path) (v : Value) :
    encodeWith e rec k c p v ≠ .error (.panic nilCodecPanic) := by
  cases c with
  | errorCodec => exact err_ne_nil
  | marshalerCodec =>
    simp only [encodeWith]
    split_ifs
    · exact panic_ne_nil (ne_nilCodecPanic rfl)
    · exact mapError_err_ne_nil _
  | boolCodec | intCodec | uintCodec | hyperCodec | uhyperCodec | floatCodec | doubleCodec
  | complex64Codec | complex128Codec => exact ok_ne_nil
  | fixedStringCodec len =>
    simp only [encodeWith]
    split_ifs
    · exact ok_ne_nil
    · exact err_ne_nil
  | varStringCodec maxlen origMax =>
    simp only [encodeWith]
    split_ifs
    · exact mapError_err_ne_nil _
    · exact err_ne_nil
  | opaqueArrayCodec len =>
    cases p with
    | mem => exact ok_ne_nil
    | reflect addr ro =>
      simp only [encodeWith]
      split_ifs
      · exact panic_ne_nil (ne_nilCodecPanic rfl)
      · exact panic_ne_nil (ne_nilCodecPanic rfl)
      · exact ok_ne_nil
  | arrayCodec ek len => exact encodeEach_ne_nil (hrec ek p) _
  | opaqueSliceCodec maxlen origMax =>
    simp only [encodeWith]
    split_ifs
    · exact panic_ne_nil (ne_nilCodecPanic rfl)
    · exact err_ne_nil
    · exact mapError_err_ne_nil _
  | sliceCodec ek maxlen origMax =>
    simp only [encodeWith]
    split_ifs
    · exact err_ne_nil
    · refine bind_ne_nil (encodeEach_ne_nil (hrec ek _) _) fun _ => ?_
      exact ok_ne_nil
  | mapCodec kk vk maxlen origMax =>
    simp only [encodeWith]
    split_ifs
    · exact err_ne_nil
    · refine bind_ne_nil (encodeEach_ne_nil (fun _ => ?_) _) fun _ => ?_
      · refine bind_ne_nil (hrec kk _ _) fun _ => bind_ne_nil (hrec vk _ _) fun _ => ?_
        exact ok_ne_nil
      · exact ok_ne_nil
  | optCodec ek =>
    simp only [encodeWith]
    split_ifs
    · exact ok_ne_nil
    · refine bind_ne_nil (hrec ek p v) fun _ => ?_
      exact ok_ne_nil
  | ptrCodec ek =>
    simp only [encodeWith]
    split_ifs
    · exact err_ne_nil
    · exact hrec _ _ _
  | structCodec name fields =>
    exact encodeEach_ne_nil (fun _ => mapError_withField_ne_nil (hrec _ _ _) _ _ _) _
  | unionCodec name sw bodies cases dflt kind =>
    simp only [encodeWith]
    split
    · rename_i g hg
      exact withField_error_ne_nil (hrec _ _ _) hg _ _ _
    split
    · exact err_ne_nil
    rename_i i hi
    split
    · -- the selected arm has a body
      rename_i hnone
      obtain ⟨f, hf⟩ := ArmsHaveBodies.find hc hi
      exact absurd (hnone.symm.trans hf) nofun
    split
    · rename_i g hg
      exact withField_error_ne_nil (hrec _ _ _) hg _ _ _
    · exact ok_ne_nil

/-- The same for `Decode`. -/
theorem decodeWith_ne_nil {rec : Key → Path → Value → Input → Except Fail (Value × Input)}
    (hrec : ∀ k p v inp, rec k p v inp ≠ .error (.panic nilCodecPanic)) (k : Key) {c : Codec}
    (hc : c.ArmsBound) (p : Path) (v : Value) (inp : Input) :
    decodeWith e rec k c p v inp ≠ .error (.panic nilCodecPanic) := by
  cases c with
  | errorCodec => exact err_ne_nil
  | marshalerCodec =>
    simp only [decodeWith]
    split_ifs
    · exact panic_ne_nil (ne_nilCodecPanic rfl)
    · split
      · exact err_ne_nil
      · exact ok_ne_nil
  | boolCodec | intCodec | uintCodec | hyperCodec | uhyperCodec | floatCodec | doubleCodec =>
    exact setAfter_ne_nil _ _ (readAs_ne_nil _ _)
  | complex64Codec | complex128Codec =>
    simp only [decodeWith]
    split
    · exact err_ne_nil
    split
    · exact err_ne_nil
    · exact setAfter_ne_nil _ _ ok_ne_nil
  | fixedStringCodec len =>
    exact setAfter_ne_nil _ _ (map_ne_nil _ (decodeFixedOpaque_ne_nil _ _ _))
  | varStringCodec maxlen origMax =>
    refine setAfter_ne_nil _ _ ?_
    split
    · exact err_ne_nil
    · rename_i f _ hf
      exact error_ne_nil (ne_nil_of_eq_error (decodeOpaque_ne_nil _ _ _) hf)
    · exact ok_ne_nil
  | opaqueArrayCodec len =>
    cases p with
    | mem => exact map_ne_nil _ (decodeFixedOpaque_ne_nil _ _ _)
    | reflect addr ro =>
      simp only [decodeWith]
      split_ifs
      · exact panic_ne_nil (ne_nilCodecPanic rfl)
      · exact panic_ne_nil (ne_nilCodecPanic rfl)
      · exact map_ne_nil _ (decodeFixedOpaque_ne_nil _ _ _)
  | arrayCodec ek len => exact map_ne_nil _ (decodeEach_ne_nil (hrec ek p) _ _)
  | opaqueSliceCodec maxlen origMax =>
    cases p with
    | mem => exact map_ne_nil _ (decodeOpaque_ne_nil _ _ _)
    | reflect addr ro =>
      simp only [decodeWith]
      split
      · rename_i _ hr
        exact error_ne_nil (ne_nil_of_eq_error (decodeOpaque_ne_nil _ _ _) hr)
      split
      · rename_i msg hm
        exact panic_ne_nil (assignPanic_ne_nil hm)
      split_ifs
      · exact panic_ne_nil (ne_nilCodecPanic rfl)
      · exact map_ne_nil _ (decodeOpaque_ne_nil _ _ _)
  | sliceCodec ek maxlen origMax =>
    simp only [decodeWith]
    split
    · exact err_ne_nil
    split_ifs
    · exact setAfter_ne_nil _ _ ok_ne_nil
    · exact err_ne_nil
    split
    · rename_i msg hm
      exact panic_ne_nil (assignPanic_ne_nil hm)
    · exact map_ne_nil _ (decodeEach_ne_nil (hrec ek _) _ _)
  | mapCodec kk vk maxlen origMax =>
    simp only [decodeWith]
    split
    · exact err_ne_nil
    split_ifs
    · exact err_ne_nil
    split
    · rename_i msg hm
      exact panic_ne_nil (assignPanic_ne_nil hm)
    · exact map_ne_nil _ (decodeEntries_ne_nil (hrec kk _ _) (hrec vk _ _) _ _ _)
  | optCodec ek =>
    cases p with
    | mem =>
      simp only [decodeWith]
      split
      · exact err_ne_nil
      · exact hrec _ _ _ _
      · exact ok_ne_nil
    | reflect addr ro =>
      simp only [decodeWith]
      split
      · rename_i msg hm
        exact panic_ne_nil (assignPanic_ne_nil hm)
      split
      · exact err_ne_nil
      · exact hrec _ _ _ _
      · exact ok_ne_nil
  | ptrCodec ek =>
    simp only [decodeWith]
    split
    · rename_i msg hm
      exact panic_ne_nil (assignPanic_ne_nil hm)
    · exact map_ne_nil _ (hrec _ _ _ _)
  | structCodec name fields =>
    simp only [decodeWith]
    split_ifs
    · exact panic_ne_nil (ne_nilCodecPanic rfl)
    · exact map_ne_nil _ (decodeFields_ne_nil (fun _ _ _ => mapError_withField_ne_nil
        (hrec _ _ _ _) _ _ _) _ _ _)
  | unionCodec name sw bodies cases dflt kind =>
    simp only [decodeWith]
    split_ifs
    · exact panic_ne_nil (ne_nilCodecPanic rfl)
    split
    · rename_i g hg
      exact withField_error_ne_nil (hrec _ _ _ _) hg _ _ _
    split
    · exact err_ne_nil
    rename_i i hi
    split
    · -- the selected arm has a body
      rename_i hnone
      obtain ⟨f, hf⟩ := ArmsHaveBodies.find hc hi
      exact absurd (hnone.symm.trans hf) nofun
    split
    · rename_i g hg
      exact withField_error_ne_nil (hrec _ _ _ _) hg _ _ _
    · exact ok_ne_nil

/-- Over every codec tree, `Encode` never calls through a nil codec. -/
theorem encodeAt_ne_nil : ∀ n k p v, encodeAt e n k p v ≠ .error (.panic nilCodecPanic)
  | 0, _, _, _ => nofun
  | n + 1, k, p, v => by
    rw [encodeAt_succ]
    split
    · rename_i m hm
      exact panic_ne_nil (codec_error_ne_nil hm)
    · rename_i c hkc
      exact encodeWith_ne_nil e (encodeAt_ne_nil n) k (e.codec_armsBound hkc) p v

theorem decodeAt_ne_nil : ∀ n k p v inp, decodeAt e n k p v inp ≠ .error (.panic nilCodecPanic)
  | 0, _, _, _, _ => nofun
  | n + 1, k, p, v, inp => by
    unfold decodeAt
    split
    · rename_i m hm
      exact panic_ne_nil (codec_error_ne_nil hm)
    · rename_i c hkc
      exact decodeWith_ne_nil e (decodeAt_ne_nil n) k (e.codec_armsBound hkc) p v inp

/-- Building the codecs a call needs panics only as the builder does. -/
theorem construct_ne_nil : ∀ n todo known, construct e n todo known ≠ .error (.panic nilCodecPanic)
  | 0, [], _ | _ + 1, [], _ => ok_ne_nil
  | 0, _ :: _, _ => nofun
  | n + 1, k :: todo, known => by
    simp only [construct]
    split_ifs
    · exact construct_ne_nil n todo known
    split
    · rename_i m hm
      exact panic_ne_nil (buildCodec_error_ne_nil hm)
    · exact construct_ne_nil n _ _

/-- `Encode` and `Decode` never call a method through a nil codec: for every program, build, word
size, fuel, type, value and stream, neither ends in that panic. The arm a union selects always
has its codec, and nothing else panics with that text. -/
theorem encode_decode_no_nil_arm :
    (∀ fuel t v, encode e fuel t v ≠ .error (.panic nilCodecPanic)) ∧
      ∀ fuel t x inp, decode e fuel t x inp ≠ .error (.panic nilCodecPanic) := by
  refine ⟨fun fuel t v => ?_, fun fuel t x inp => ?_⟩
  · unfold encode
    split
    · rename_i f hf
      exact error_ne_nil (ne_nil_of_eq_error (construct_ne_nil e _ _ _) hf)
    · exact encodeAt_ne_nil e _ _ _ _
  · unfold decode
    split
    · rename_i f hf
      exact error_ne_nil (ne_nil_of_eq_error (construct_ne_nil e _ _ _) hf)
    · exact decodeAt_ne_nil e _ _ _ _ _

end Step

end OncXdr
