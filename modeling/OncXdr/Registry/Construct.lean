import OncXdr.Registry.Coherence

/-!
# OncXdr.Registry.Construct — the registry hands out the codecs the codec model runs

The codec modules run, for each key, the codec `buildCodec` makes (`Env.codec`). The registry
builds codecs lazily, one `getNewCodec` per key, and records in each job what `buildCodec` made
for the job's key. So every codec a job holds, and every codec `knownCodecs` holds other than a
registered one, is `Env.codec` of its key (`BuiltCodecs`, kept by every step). With the
coherence invariant, whatever a lookup of `k` returned, a codec or a placeholder, it runs once
resolved `Env.codec k`, or a codec `RegisterCodecReflect` stored at `k` (`lookup_runs_codec`).

Only the codecs are compared here; which keys a lookup builds, and whether it panics, is
compared with the eager `construct` in `Registry.Eager`.
-/

namespace OncXdr

namespace Registry

open Function

variable (e : Env)

/-- Every codec a job holds, and every built codec `knownCodecs` holds, is the one `buildCodec`
makes for its key. -/
structure BuiltCodecs (s : Registry) : Prop where
  jobs : ∀ d k c st, s.jobs d = some (.built k c st) → e.codec k = .ok c
  known : ∀ k c, s.known k = some (.built c) → e.codec k = .ok c

theorem builtCodecs_init : BuiltCodecs e init :=
  ⟨fun _ _ _ _ h => (nomatch h), fun _ _ h => (nomatch h)⟩

section Steps

variable {e} {s : Registry} (hs : BuiltCodecs e s)
include hs

theorem BuiltCodecs.of_eq {s' : Registry} (hj : s'.jobs = s.jobs) (hk : s'.known = s.known) :
    BuiltCodecs e s' :=
  ⟨hj ▸ hs.jobs, hk ▸ hs.known⟩

/-- A job recorded for a key whose codec it holds. -/
theorem BuiltCodecs.jobs_update {d : Nat} {j : Job}
    (hj : ∀ k c st, j = .built k c st → e.codec k = .ok c) :
    ∀ d' k c st, update s.jobs d (some j) d' = some (.built k c st) → e.codec k = .ok c := by
  intro d' k c st h
  by_cases hd : d' = d
  · subst hd
    rw [update_same] at h
    exact hj k c st (Option.some.inj h)
  · rw [update_noteq hd] at h
    exact hs.jobs d' k c st h

/-- An entry stored at a key, built for it if it is a built codec. -/
theorem BuiltCodecs.known_update {k : Key} {x : Entry}
    (hx : ∀ c, x = .built c → e.codec k = .ok c) :
    ∀ k' c, update s.known k (some x) k' = some (.built c) → e.codec k' = .ok c := by
  intro k' c h
  by_cases hk : k' = k
  · subst hk
    rw [update_same] at h
    exact hx c (Option.some.inj h)
  · rw [update_noteq hk] at h
    exact hs.known k' c h

/-- A job moved on one stage keeps its key and codec. -/
theorem BuiltCodecs.advance {d : Nat} {k : Key} {c : Codec} {st : Stage}
    (h : s.jobs d = some (.built k c st)) (st' : Stage) :
    ∀ d' k' c' st'', update s.jobs d (some (.built k c st')) d' = some (.built k' c' st'') →
      e.codec k' = .ok c' :=
  hs.jobs_update fun _ _ _ he => by cases he; exact hs.jobs d _ _ _ h

theorem BuiltCodecs.found {g : Nat} {k : Key} {x : Entry} : BuiltCodecs e (found e s g k x) := by
  unfold Registry.found
  split <;> exact hs.of_eq rfl rfl

/-- Every step keeps the codecs built for their keys: `getNewCodec` records what `buildCodec`
made, and a job stores the codec it holds. -/
theorem BuiltCodecs.stepFrame (g : Nat) (f : Frame) : BuiltCodecs e (stepFrame e s g f) := by
  cases f with
  | getCodec k | getBase k =>
    simp only [Registry.stepFrame]
    split
    · exact hs.found
    · exact hs.of_eq rfl rfl
  | getNew k =>
    simp only [Registry.stepFrame]
    split
    · exact hs.found
    · have hd : ∀ c, Entry.deferred s.fresh = .built c → e.codec k = .ok c := fun _ h => nomatch h
      split
      · exact ⟨hs.jobs_update fun _ _ _ h => (nomatch h), hs.known_update hd⟩
      · rename_i b hb
        refine ⟨hs.jobs_update fun _ _ _ h => ?_, hs.known_update hd⟩
        cases h
        rw [Env.codec, hb]
        rfl
  | job d =>
    simp only [Registry.stepFrame]
    split
    · rename_i k c l ls h
      exact ⟨hs.advance h _, hs.known⟩
    · rename_i k c h
      exact ⟨hs.advance h _, hs.known_update fun _ he => by cases he; exact hs.jobs d _ _ _ h⟩
    · rename_i k c h
      exact ⟨hs.advance h _, hs.known⟩
    · rename_i k c h
      exact ⟨hs.advance h _, hs.known⟩
    · exact hs.of_eq rfl rfl
  | register t c =>
    simp only [Registry.stepFrame]
    split
    · exact hs.of_eq rfl rfl
    · split
      · exact hs.of_eq rfl rfl
      · split
        · exact ⟨hs.jobs, hs.known_update fun _ h => nomatch h⟩
        · split
          · exact hs.of_eq rfl rfl
          · split <;> exact hs.of_eq rfl rfl

theorem BuiltCodecs.exec (a : Action) : BuiltCodecs e (exec e s a) := by
  cases a with
  | call g op =>
    simp only [Registry.exec]
    split
    · exact hs.of_eq rfl rfl
    · exact hs
  | step g =>
    simp only [Registry.exec]
    split
    · exact hs
    · exact hs.stepFrame _ _

end Steps

theorem builtCodecs_run {s : Registry} (hs : BuiltCodecs e s) (as : List Action) :
    BuiltCodecs e (run e s as) := by
  induction as generalizing s with
  | nil => exact hs
  | cons a as ih => exact ih (hs.exec a)

/-- Under any interleaving of any goroutines' calls from `NewCoder()`, whatever a lookup of `k`
returned, a codec or a placeholder, runs once resolved the codec `knownCodecs` holds at `k`:
the codec `buildCodec` makes for `k`, which is the codec the codec model runs for `k`, or a
codec registered for `k`. -/
theorem lookup_runs_codec (as : List Action) {k : Key} {x a : Entry}
    (hx : (k, x) ∈ (run e init as).log) (ha : (run e init as).target x = some a) :
    (run e init as).known k = some a ∧
      ((∃ c, a = .built c ∧ e.codec k = .ok c) ∨ ∃ c, a = .user c) := by
  have hs := coherent_run e coherent_init as
  have hk := hs.target_known hx ha
  refine ⟨hk, ?_⟩
  cases a with
  | built c => exact .inl ⟨c, rfl, (builtCodecs_run e (builtCodecs_init e) as).known k c hk⟩
  | user c => exact .inr ⟨c, rfl⟩
  | deferred d =>
    -- a placeholder is resolved to a codec, never to another placeholder
    cases x with
    | deferred d' =>
      obtain ⟨-, -, h⟩ := hs.real_known d' _ ha
      cases h
    | _ => cases ha

/-- Goroutine `1` gets the placeholder of `T` while goroutine `0` builds it; the placeholder
runs, once resolved, the struct codec `buildCodec` makes for `T`. -/
theorem placeholder_runs_built_codec :
    let s := run ⟨registerProgram, .w64, false⟩ init [.call 0 (.getCodec ⟨0, []⟩), .step 0, .step 0,
      .call 1 (.getCodec ⟨0, []⟩), .step 1, .step 0, .step 0, .step 0, .step 0, .step 0, .step 0,
      .step 0, .step 0, .step 0]
    (⟨0, []⟩, .deferred 0) ∈ s.log ∧
      s.target (.deferred 0) = some (.built (.structCodec "T" [⟨0, "A", ⟨1, []⟩⟩])) ∧
      s.known ⟨0, []⟩ = some (.built (.structCodec "T" [⟨0, "A", ⟨1, []⟩⟩])) ∧
      ((∃ c, Entry.built (.structCodec "T" [⟨0, "A", ⟨1, []⟩⟩]) = .built c ∧
        Env.codec ⟨registerProgram, .w64, false⟩ ⟨0, []⟩ = .ok c) ∨
        ∃ c, Entry.built (.structCodec "T" [⟨0, "A", ⟨1, []⟩⟩]) = .user c) := by
  intro s
  have hlog : s.log = [(⟨0, []⟩, .deferred 0), (⟨1, []⟩, .built (.intCodec 32)),
      (⟨0, []⟩, .built (.structCodec "T" [⟨0, "A", ⟨1, []⟩⟩]))] := rfl
  have hx : (⟨0, []⟩, .deferred 0) ∈ s.log := hlog ▸ .head _
  have ht : s.target (.deferred 0) = some (.built (.structCodec "T" [⟨0, "A", ⟨1, []⟩⟩])) := rfl
  exact ⟨hx, ht, lookup_runs_codec _ _ hx ht⟩

end Registry

end OncXdr
