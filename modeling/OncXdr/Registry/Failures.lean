import OncXdr.Registry.Coherence
import OncXdr.Codec.TagAgreement

/-!
# OncXdr.Registry.Failures — what the registry does with a build that panics and a user codec

Two ways in which the registry hands out something other than a working codec, both derived
from `Effect`:

* a `getNewCodec` call whose `buildCodec` panics has already installed its placeholder; the
  panic unwinds the goroutine before `dc.resolve`, and no step resolves that placeholder
  afterwards (`panicked_run`). The key keeps the placeholder forever and every later lookup of
  the key returns it, so every later use of the key waits on `dc.wg` forever
  (`panicked_blocks`). A union whose switch field is `int8` is such a key: on a new `Coder` the
  first `Encode` of it panics, and every later one waits (`encode_switch_panics`).
* `RegisterCodecReflect` stores the user's codec as it is. In the default build, where
  `xCodec` has the unexported unsafe methods, every lookup that finds it fails the assertion
  `c.(xCodec)`, so no lookup ever returns a registered codec (`default_log_no_user`), and
  registering the same codec again panics too.
-/

namespace OncXdr

namespace Registry

open Function

variable (e : Env)

/-! ## A build that panicked -/

section Panicked

variable {s : Registry} (hs : Coherent s) {d : Nat} {k : Key} {m : String}
  (hj : s.jobs d = some (.panicked k m))
include hs hj

/-- A panicked job's key holds its placeholder. -/
theorem Coherent.known_of_panicked : s.known k = some (.deferred d) :=
  hs.view_known d k _ (view_eq_some.mpr ⟨_, hj, rfl, rfl⟩)

/-- A panicked job's placeholder is not resolved: a resolved one forwards to a codec. -/
theorem Coherent.real_of_panicked : s.real d = none := by
  cases hr : s.real d with
  | none => rfl
  | some x =>
    obtain ⟨k', hk', hx⟩ := hs.real_known d x hr
    obtain ⟨j, hj', -, rfl⟩ := view_eq_some.mp hk'
    rw [hj] at hj'
    cases hj'
    simp [Job.entry, Entry.isDeferred] at hx

/-- No step touches a panicked job: the steps that change a job are the install of a fresh
placeholder and the progress of a job that built. -/
theorem Coherent.panicked_stable {n : Bool} {s' : Registry} (h : Effect n s s') :
    s'.jobs d = some (.panicked k m) := by
  -- any other job a step changes is a different placeholder
  have other : ∀ {d' j}, s.jobs d' = some j → j ≠ .panicked k m → d ≠ d' := by
    rintro d' j h' hne rfl; rw [hj] at h'; cases h'; exact hne rfl
  cases h with
  | install st ps k' j =>
    exact (update_noteq (hs.lt_fresh (view_eq_some.mpr ⟨_, hj, rfl, rfl⟩)).ne _ _).trans hj
  | advance st d' k' c l ls h => exact (update_noteq (other h nofun) _ _).trans hj
  | store d' k' c h => exact (update_noteq (other h nofun) _ _).trans hj
  | storeBase d' k' c h => exact (update_noteq (other h nofun) _ _).trans hj
  | resolve st d' k' c h => exact (update_noteq (other h nofun) _ _).trans hj
  | _ => exact hj

end Panicked

/-- Along every run, a panicked job stays panicked. -/
theorem panicked_run {s : Registry} (hs : Coherent s) {d : Nat} {k : Key} {m : String}
    (hj : s.jobs d = some (.panicked k m)) (as : List Action) :
    (run e s as).jobs d = some (.panicked k m) := by
  induction as generalizing s with
  | nil => exact hj
  | cons a as ih => exact ih (hs.effect (exec_effect e s a)) (hs.panicked_stable hj (exec_effect e s a))

/-- Whatever runs next, the key of a panicked job holds its placeholder, which is never
resolved: every lookup of the key returns a codec whose every call waits forever. -/
theorem panicked_blocks {s : Registry} (hs : Coherent s) {d : Nat} {k : Key} {m : String}
    (hj : s.jobs d = some (.panicked k m)) (as : List Action) :
    (run e s as).known k = some (.deferred d) ∧ (run e s as).target (.deferred d) = none :=
  have hs' := coherent_run e hs as
  have hj' := panicked_run e hs hj as
  ⟨hs'.known_of_panicked hj', hs'.real_of_panicked hj'⟩

/-- The step that makes a panicked job: `getNewCodec` wins its `LoadOrStore`, and
`buildCodec` panics. -/
theorem exec_getNew_panics {s : Registry} {g : Nat} {k : Key} {fs : List Frame}
    (hg : s.calls g = .getNew k :: fs) (hk : s.known k = none) {m : String}
    (hb : buildCodec e.U e.w k = .error m) :
    let s' := exec e s (.step g)
    s'.jobs s.fresh = some (.panicked k m) ∧ s'.known k = some (.deferred s.fresh) ∧
      s'.calls g = [] ∧ s'.panics = s.panics ++ [(g, .build m)] := by
  simp [exec, hg, stepFrame, hk, hb, abort]

/-- A struct whose first field is a `union:switch` of a kind that `validForUnionSwitch` admits
and `makeStructCodec` refuses (`switch_kind_gap`), with no `MarshalXDR`. On a new `Coder`,
`Encode` panics while the codec is built, whatever the value. In the registry the first lookup of
the type panics the same way and leaves its placeholder: every later lookup on that `Coder` gets
a codec that waits forever. -/
theorem encode_switch_panics {t : TypeId} {f : Field} {rest : List Field}
    (hs : (e.U.info t).shape = .struct (f :: rest)) (hm : (e.U.info t).implementsMarshaler = false)
    (hf : f.tag = "union:switch".toList) (hv : validForUnionSwitch (e.U.kind f.type) = true)
    (hn : switchKindOf (e.U.kind f.type) = none) (fuel : Nat) (v : Value) (g : Nat)
    (as : List Action) :
    let first := [Action.call g (.getBase t), .step g, .step g]
    encode e (fuel + 1) t v =
        .error (.panic "Switch field of union not valid (must be int32, uint32 or bool)") ∧
      (run e init first).panics =
        [(g, .build "Switch field of union not valid (must be int32, uint32 or bool)")] ∧
      (run e init (first ++ as)).known ⟨t, []⟩ = some (.deferred 0) ∧
      (run e init (first ++ as)).target (.deferred 0) = none := by
  intro first
  have hb := buildCodec_switch_panics e.U e.w hs hm hf hv hn
  -- `getBase` misses on the empty registry and goes on as `getNewCodec`
  have hs₂ : let s := run e init [.call g (.getBase t), .step g]
      s.calls g = [.getNew ⟨t, []⟩] ∧ s.known ⟨t, []⟩ = none ∧ s.fresh = 0 ∧ s.panics = [] := by
    simp [run, exec, init, push, stepFrame, become, Op.frame]
  obtain ⟨hg, hk, h₀, hp₀⟩ := hs₂
  obtain ⟨hj, -, -, hp⟩ := exec_getNew_panics e hg hk hb
  rw [h₀] at hj
  rw [hp₀] at hp
  rw [run_append]
  exact ⟨by simp [encode, construct, Key.base, hb], hp,
    panicked_blocks e (coherent_run e coherent_init first) hj as⟩

/-- The union `U` with its `int8` switch is such a struct. -/
theorem encode_int8_switch_panics :
    let e : Env := ⟨int8SwitchProgram, .w64, false⟩
    (e.U.info 0).shape = .struct [⟨"S", 1, true, "union:switch".toList⟩,
      ⟨"A", 2, true, "union:0".toList⟩] ∧
    (e.U.info 0).implementsMarshaler = false ∧ validForUnionSwitch (e.U.kind 1) = true ∧
    switchKindOf (e.U.kind 1) = none ∧
    encode e 3 0 (.struct [.int 0, .int 7]) =
      .error (.panic "Switch field of union not valid (must be int32, uint32 or bool)") ∧
    (run e init [.call 0 (.getBase 0), .step 0, .step 0]).panics =
      [(0, .build "Switch field of union not valid (must be int32, uint32 or bool)")] ∧
    (run e init [.call 0 (.getBase 0), .step 0, .step 0, .call 0 (.getBase 0), .step 0]).known
      ⟨0, []⟩ = some (.deferred 0) ∧
    (run e init [.call 0 (.getBase 0), .step 0, .step 0, .call 0 (.getBase 0), .step 0]).target
      (.deferred 0) = none :=
  ⟨rfl, rfl, rfl, rfl, encode_switch_panics ⟨int8SwitchProgram, .w64, false⟩ (t := 0) rfl rfl rfl
    rfl rfl 2 (.struct [.int 0, .int 7]) 0 [.call 0 (.getBase 0), .step 0]⟩

/-- `U` with its `int8` switch, looked up by goroutine `0`, whose build panics, and then by
goroutine `1`, which gets the placeholder. Whatever runs afterwards, `U`'s key holds that
placeholder and it is never resolved. -/
theorem int8_switch_placeholder_unresolved (w : WordSize) (reflectOnly : Bool) (bs : List Action) :
    let e : Env := ⟨int8SwitchProgram, w, reflectOnly⟩
    let s := run e init [.call 0 (.getCodec ⟨0, []⟩), .step 0, .step 0,
      .call 1 (.getCodec ⟨0, []⟩), .step 1]
    s.panics = [(0, .build "Switch field of union not valid (must be int32, uint32 or bool)")] ∧
    s.log = [(⟨0, []⟩, .deferred 0)] ∧
    (run e s bs).known ⟨0, []⟩ = some (.deferred 0) ∧ (run e s bs).target (.deferred 0) = none := by
  intro e s
  have hj : s.jobs 0 =
      some (.panicked ⟨0, []⟩ "Switch field of union not valid (must be int32, uint32 or bool)") := rfl
  exact ⟨rfl, rfl, panicked_blocks e (coherent_run e coherent_init _) hj bs⟩

/-! ## A registered codec in the default build -/

/-- Every lookup so far returned an entry that passed `x.(xCodec)`. -/
def LogXCodec (n : Bool) (s : Registry) : Prop := ∀ k x, (k, x) ∈ s.log → x.isXCodec n = true

theorem logXCodec_init (n : Bool) : LogXCodec n init := fun _ _ h => nomatch h

/-- The only steps that log return what passed the assertion, or a codec `buildCodec` made. -/
theorem Effect.logXCodec {n : Bool} {s s' : Registry} (h : Effect n s s') (hl : LogXCodec n s) :
    LogXCodec n s' := by
  cases h with
  | found st k x _ hx =>
    intro k' x' hm
    rcases List.mem_append.mp hm with hm | hm
    · exact hl k' x' hm
    · cases List.mem_singleton.mp hm; exact hx
  | resolve st d k c _ =>
    intro k' x' hm
    rcases List.mem_append.mp hm with hm | hm
    · exact hl k' x' hm
    · cases List.mem_singleton.mp hm; rfl
  | _ => exact hl

theorem logXCodec_run {s : Registry} (hl : LogXCodec e.reflectOnly s) (as : List Action) :
    LogXCodec e.reflectOnly (run e s as) := by
  induction as generalizing s with
  | nil => exact hl
  | cons a as ih => exact ih ((exec_effect e s a).logXCodec hl)

/-- In the default build no lookup, in any run, returns a registered codec. -/
theorem default_log_no_user (he : e.reflectOnly = false) (as : List Action) (k : Key) (c : Nat) :
    (k, .user c) ∉ (run e init as).log := fun hm => by
  have := logXCodec_run e (logXCodec_init _) as k _ hm
  simp [Entry.isXCodec, he] at this

/-- Goroutine `0` registers codec `7` for `T`, which returns normally. In the default build a
lookup of `T` by goroutine `1` and a second registration of `7` by goroutine `2` both panic in
`c.(xCodec)`, and no lookup in any run after the registration returns `7`; in the `nounsafe`
build the same calls return normally and the lookup returns `7`. -/
theorem registered_codec_unusable (w : WordSize) :
    let s := run ⟨registerProgram, w, false⟩ init [.call 0 (.register 0 7), .step 0]
    let more := [.call 1 (.getCodec ⟨0, []⟩), .step 1, .call 2 (.register 0 7), .step 2]
    s.known ⟨0, []⟩ = some (.user 7) ∧ s.panics = [] ∧
    (run ⟨registerProgram, w, false⟩ s more).panics = [(1, .notXCodec), (2, .notXCodec)] ∧
    (∀ as k, (k, .user 7) ∉ (run ⟨registerProgram, w, false⟩ s as).log) ∧
    (run ⟨registerProgram, w, true⟩ init ([.call 0 (.register 0 7), .step 0] ++ more)).panics = [] ∧
    (run ⟨registerProgram, w, true⟩ init ([.call 0 (.register 0 7), .step 0] ++ more)).log =
      [(⟨0, []⟩, .user 7)] := by
  intro s more
  refine ⟨rfl, rfl, rfl, fun as k => ?_, rfl, rfl⟩
  rw [← run_append]
  exact default_log_no_user ⟨registerProgram, w, false⟩ rfl _ k 7

end Registry

end OncXdr
