import OncXdr.Registry.WaitFree

/-!
# OncXdr.Registry.Release — a placeholder is resolved when the call that built it returns

A goroutine that looks a key up while another builds it gets the placeholder, and a call
through the placeholder waits on `dc.wg` until `dc.resolve` runs. `resolve` is the last step of
the `getNewCodec` call that installed the placeholder, so the wait ends when that call returns,
unless it panicked: a panic unwinds past `resolve`, and the placeholder is never resolved.

`Held` is what makes this hold under any interleaving: every job frame on a goroutine's stack is
for a job whose `buildCodec` returned, and a job that has run `resolve` has resolved its
placeholder. Every action keeps it (`Held.exec`). A goroutine holding the job of placeholder `d`
then stops holding it only by resolving `d` or by a panic (`Held.release`), whatever the other
goroutines do (`placeholder_resolved`). With the bound `Registry.WaitFree` gives on the caller's
own steps, a lookup ends within the bound having resolved every placeholder it built, unless it
panicked: whoever waits on such a placeholder is released (`getCodec_releases`).
-/

namespace OncXdr

namespace Registry

open Function

/-- A job whose `buildCodec` returned a codec. -/
def BuiltJob : Option Job → Prop
  | some (.built ..) => True
  | _ => False

variable (e : Env)

/-- Job frames run jobs that built a codec, and a job that has run `dc.resolve` resolved its
placeholder. -/
structure Held (s : Registry) : Prop where
  coherent : Coherent s
  frames : ∀ g d, Frame.job d ∈ s.calls g → BuiltJob (s.jobs d)
  resolved : ∀ d k c, s.jobs d = some (.built k c .resolved) → (s.real d).isSome

theorem held_init : Held init :=
  ⟨coherent_init, fun _ _ h => (nomatch h), fun _ _ _ h => (nomatch h)⟩

section Steps

variable {e} {s : Registry}

/-- A job that built a codec keeps it, and the number `fresh` has no job yet. -/
theorem Effect.builtJob {n : Bool} {s' : Registry} (hs : Coherent s) (h : Effect n s s') {d : Nat}
    (hd : BuiltJob (s.jobs d)) : BuiltJob (s'.jobs d) := by
  cases h with
  | install st ps k j =>
    have hne : d ≠ s.fresh := by
      rintro rfl
      have hv := hs.fresh_free s.fresh le_rfl
      simp only [view, viewOf, Option.map_eq_none'] at hv
      simp [hv, BuiltJob] at hd
    simpa [update_noteq hne] using hd
  | advance st d' k c l ls h | store d' k c h | storeBase d' k c h | resolve st d' k c h =>
    by_cases hd' : d = d'
    · subst hd'
      simp [BuiltJob]
    · simpa [update_noteq hd'] using hd
  | _ => exact hd

/-- A placeholder, once resolved, stays resolved. -/
theorem Effect.real_isSome {n : Bool} {s' : Registry} (h : Effect n s s') {d : Nat}
    (hd : (s.real d).isSome) : (s'.real d).isSome := by
  cases h with
  | resolve st d' k c =>
    by_cases hd' : d = d'
    · subst hd'
      simp
    · simpa [update_noteq hd'] using hd
  | _ => exact hd

/-- Only `dc.resolve` moves a job to its last stage, and it resolves the placeholder. -/
theorem Effect.resolved {n : Bool} {s' : Registry} (h : Effect n s s')
    (hr : ∀ d k c, s.jobs d = some (.built k c .resolved) → (s.real d).isSome) :
    ∀ d k c, s'.jobs d = some (.built k c .resolved) → (s'.real d).isSome := by
  intro d k c hd
  have old : s.jobs d = some (.built k c .resolved) → (s'.real d).isSome :=
    fun h' => h.real_isSome (hr d k c h')
  cases h with
  | install st ps k' j hk hj he =>
    by_cases hd' : d = s.fresh
    · subst hd'
      simp only [update_same, Option.some.injEq] at hd
      subst hd
      simp [Job.entry] at he
    · exact old (by simpa [update_noteq hd'] using hd)
  | advance st d' k' c' l ls | store d' k' c' | storeBase d' k' c' =>
    by_cases hd' : d = d'
    · subst hd'
      simp at hd
    · exact old (by simpa [update_noteq hd'] using hd)
  | resolve st d' k' c' =>
    by_cases hd' : d = d'
    · subst hd'
      simp
    · exact old (by simpa [update_noteq hd'] using hd)
  | _ => exact old hd

/-- A step of `g` puts on its stack no job frame but the fresh one, for a job that built. -/
theorem stepFrame_job_mem {g : Nat} {f : Frame} {rest : List Frame} (hg : s.calls g = f :: rest)
    {d : Nat} (hd : Frame.job d ∈ (stepFrame e s g f).calls g) :
    Frame.job d ∈ s.calls g ∨ d = s.fresh ∧ BuiltJob ((stepFrame e s g f).jobs d) := by
  -- a call that returns, or goes on as a lookup, leaves the job frames under it
  have under : ∀ {fs : List Frame}, fs = rest ∨ (∃ k, fs = .getNew k :: rest) ∨ fs = [] →
      Frame.job d ∈ fs → Frame.job d ∈ s.calls g := by
    rintro fs (rfl | ⟨k, rfl⟩ | rfl) h
    · exact hg ▸ .tail _ h
    · exact hg ▸ .tail _ (List.mem_cons.mp h |>.resolve_left nofun)
    · cases h
  cases f with
  | getNew k =>
    cases hk : s.known k with
    | some x =>
      simp only [stepFrame, hk, found] at hd
      split at hd <;> exact .inl (under (by simp [ret, abort, hg]) hd)
    | none =>
      cases hb : buildCodec e.U e.w k with
      | error m =>
        simp only [stepFrame, hk, hb] at hd
        exact .inl (under (by simp [abort]) hd)
      | ok b =>
        -- the winning `getNewCodec` goes on as the job of the fresh placeholder
        simp only [stepFrame, hk, hb, become, hg, update_same, List.tail_cons] at hd ⊢
        rcases List.mem_cons.mp hd with he | hd
        · cases he
          exact .inr ⟨rfl, by simp [BuiltJob]⟩
        · exact .inl (hg ▸ .tail _ hd)
  | job d₀ =>
    simp only [stepFrame] at hd
    split at hd
    · simp only [push, update_same] at hd
      exact .inl ((List.mem_cons.mp hd).resolve_left nofun)
    · exact .inl hd
    · exact .inl hd
    · exact .inl (under (by simp [ret, hg]) hd)
    · exact .inl (under (by simp [pop, hg]) hd)
  | _ =>
    simp only [stepFrame, found] at hd
    repeat' split at hd
    all_goals exact .inl (under (by simp [ret, pop, abort, become, hg]) hd)

/-- No action puts a job frame on a stack but the fresh one, for a job that built. -/
theorem exec_job_mem {a : Action} {g d : Nat} (hd : Frame.job d ∈ (exec e s a).calls g) :
    Frame.job d ∈ s.calls g ∨ d = s.fresh ∧ BuiltJob ((exec e s a).jobs d) := by
  cases a with
  | call g' op =>
    simp only [exec] at hd
    split at hd
    · by_cases hgg : g = g'
      · subst hgg
        simp only [push, update_same] at hd
        exact .inl ((List.mem_cons.mp hd).resolve_left (by cases op <;> nofun))
      · exact .inl (by simpa [push, update_noteq hgg] using hd)
    · exact .inl hd
  | step g' =>
    cases hc : s.calls g' with
    | nil => exact .inl (by simpa [exec, hc] using hd)
    | cons f rest =>
      simp only [exec, hc] at hd ⊢
      by_cases hgg : g = g'
      · subst hgg
        exact stepFrame_job_mem hc hd
      · rw [stepFrame_calls_ne e s hgg] at hd
        exact .inl hd

/-- Every action keeps the invariant. -/
theorem Held.exec (h : Held s) (a : Action) : Held (exec e s a) where
  coherent := h.coherent.effect (exec_effect e s a)
  frames g d hd := (exec_job_mem hd).elim
    (fun hd => (exec_effect e s a).builtJob h.coherent (h.frames g d hd)) And.right
  resolved := (exec_effect e s a).resolved h.resolved

/-- A step of `g` keeps the calls under its top one and raises no panic, or it panics. -/
theorem stepFrame_suffix {g : Nat} {f : Frame} {rest : List Frame} (hg : s.calls g = f :: rest) :
    rest <:+ (stepFrame e s g f).calls g ∧ (stepFrame e s g f).panics = s.panics ∨
      ∃ p, (stepFrame e s g f).panics = s.panics ++ [(g, p)] := by
  cases f <;> simp only [stepFrame, found] <;> repeat' split
  all_goals first
    | (right; exact ⟨_, rfl⟩)
    | (left; refine ⟨?_, rfl⟩; simp [ret, pop, become, push, hg, List.suffix_cons_iff])

/-- Panics are only added. -/
theorem exec_panics (s : Registry) (a : Action) : ∃ ps, (exec e s a).panics = s.panics ++ ps := by
  cases a with
  | call g op =>
    simp only [exec]
    split <;> exact ⟨[], (List.append_nil _).symm⟩
  | step g =>
    simp only [exec]
    split
    · exact ⟨[], (List.append_nil _).symm⟩
    · rename_i f rest hg
      rcases stepFrame_suffix hg with ⟨-, hp⟩ | ⟨p, hp⟩
      · exact ⟨[], hp.trans (List.append_nil _).symm⟩
      · exact ⟨_, hp⟩

/-- What one action does to a job frame `job d` on `g`'s stack: the frame stays, or `d` is
resolved, or `g` panics. -/
theorem Held.exec_release (h : Held s) {g d : Nat} (hd : Frame.job d ∈ s.calls g) (a : Action) :
    Frame.job d ∈ (Registry.exec e s a).calls g ∨ ((Registry.exec e s a).real d).isSome ∨
      ∃ p, (Registry.exec e s a).panics = s.panics ++ [(g, p)] := by
  obtain ⟨f, rest, hg⟩ := List.exists_cons_of_ne_nil (List.ne_nil_of_mem hd)
  by_cases ha : a = .step g
  swap
  · exact .inl ((exec_calls_of_ne e (List.ne_nil_of_mem hd) ha).symm ▸ hd)
  subst ha
  simp only [Registry.exec, hg]
  by_cases hf : f = .job d
  · -- `g`'s step of the job itself: it moves the job on, or resolves `d`
    subst hf
    have hb := h.frames g d hd
    cases hj : s.jobs d with
    | none => simp [hj, BuiltJob] at hb
    | some j =>
      cases j with
      | panicked => simp [hj, BuiltJob] at hb
      | built k c st =>
        cases st with
        | building ls =>
          cases ls with
          | cons l ls => exact .inl (by simp [stepFrame, hj, push, hg])
          | nil => exact .inl (by simpa [stepFrame, hj] using hd)
        | storedKnown => exact .inl (by simpa [stepFrame, hj] using hd)
        | storedBase => exact .inr (.inl (by simp [stepFrame, hj]))
        | resolved => exact .inr (.inl (by simpa [stepFrame, hj, pop] using h.resolved d k c hj))
  · -- a frame under the top one stays, unless `g` panics
    have hr : Frame.job d ∈ rest :=
      (List.mem_cons.mp (hg ▸ hd)).resolve_left fun he => hf he.symm
    rcases stepFrame_suffix hg with ⟨hs, -⟩ | hp
    · exact .inl (hs.subset hr)
    · exact .inr (.inr hp)

end Steps

theorem held_run {s : Registry} (h : Held s) (as : List Action) : Held (run e s as) := by
  induction as generalizing s with
  | nil => exact h
  | cons a as ih => exact ih (h.exec a)

theorem run_panics (s : Registry) (as : List Action) :
    ∃ ps, (run e s as).panics = s.panics ++ ps := by
  induction as generalizing s with
  | nil => exact ⟨[], (List.append_nil _).symm⟩
  | cons a as ih =>
    obtain ⟨ps₁, h₁⟩ := exec_panics s a
    obtain ⟨ps₂, h₂⟩ := ih (exec e s a)
    exact ⟨ps₁ ++ ps₂, by rw [run_cons, h₂, h₁, List.append_assoc]⟩

theorem run_real_isSome {s : Registry} {d : Nat} (hd : (s.real d).isSome) (as : List Action) :
    ((run e s as).real d).isSome := by
  induction as generalizing s with
  | nil => exact hd
  | cons a as ih => exact ih ((exec_effect e s a).real_isSome hd)

/-- Along any run, a goroutine holding the job of placeholder `d` goes on holding it, or `d` is
resolved, or the goroutine has panicked. -/
theorem Held.release {s : Registry} (h : Held s) {g d : Nat} (hd : Frame.job d ∈ s.calls g)
    (as : List Action) :
    Frame.job d ∈ (run e s as).calls g ∨ ((run e s as).real d).isSome ∨
      ∃ ps, (run e s as).panics = s.panics ++ ps ∧ ∃ p, (g, p) ∈ ps := by
  induction as generalizing s with
  | nil => exact .inl hd
  | cons a as ih =>
    rw [run_cons]
    rcases h.exec_release hd a with hd' | hr | ⟨p, hp⟩
    · rcases ih (h.exec a) hd' with hd'' | hr | ⟨ps, hps, p, hp⟩
      · exact .inl hd''
      · exact .inr (.inl hr)
      · obtain ⟨ps₀, h₀⟩ := exec_panics s a
        exact .inr (.inr ⟨ps₀ ++ ps, by rw [hps, h₀, List.append_assoc], p,
          List.mem_append_right _ hp⟩)
    · exact .inr (.inl (run_real_isSome e hr as))
    · obtain ⟨ps, hps⟩ := run_panics e (Registry.exec e s a) as
      exact .inr (.inr ⟨(g, p) :: ps, by rw [hps, hp, List.append_assoc]; rfl, p, .head _⟩)

/-- Under any interleaving of any goroutines' calls from `NewCoder()`: once goroutine `g` runs
the job of placeholder `d` (it won the `LoadOrStore` for the key and `buildCodec` returned), by
the time `g` no longer holds that job, `d` has been resolved, releasing every call waiting on
it, or `g` has panicked. -/
theorem placeholder_resolved (as bs : List Action) {g d : Nat} :
    let s := run e init as
    Frame.job d ∈ s.calls g → Frame.job d ∉ (run e s bs).calls g →
      (∃ x, (run e s bs).real d = some x) ∨
        ∃ ps, (run e s bs).panics = s.panics ++ ps ∧ ∃ p, (g, p) ∈ ps := by
  intro s hd hnd
  rcases (held_run e held_init as).release e hd bs with h | h | h
  · exact absurd h hnd
  · exact .inl (Option.isSome_iff_exists.mp h)
  · exact .inr h

/-- Goroutine `1` looks `int32` up while goroutine `0` builds it, and gets the placeholder;
once `0`'s call has returned, the placeholder is resolved. -/
theorem placeholder_resolved_after_build :
    let s := run ⟨registerProgram, .w64, false⟩ init [.call 0 (.getCodec ⟨1, []⟩), .step 0,
      .step 0, .call 1 (.getCodec ⟨1, []⟩), .step 1]
    let s' := run ⟨registerProgram, .w64, false⟩ s [.step 0, .step 0, .step 0]
    Frame.job 0 ∈ s.calls 0 ∧ Frame.job 0 ∉ s'.calls 0 ∧
      ((∃ x, s'.real 0 = some x) ∨
        ∃ ps, s'.panics = s.panics ++ ps ∧ ∃ p, (0, p) ∈ ps) := by
  intro s s'
  have hd : Frame.job 0 ∈ s.calls 0 := (rfl : s.calls 0 = [.job 0]) ▸ .head _
  have hnd : Frame.job 0 ∉ s'.calls 0 := (rfl : s'.calls 0 = []) ▸ List.not_mem_nil _
  exact ⟨hd, hnd, placeholder_resolved _ _ _ hd hnd⟩

/-- Goroutine `g`'s `getCodec(t, tag)`, started on a coder after any history, for a type of a
finite type graph `ts` and a tag `ParseTag` can return, under any schedule of any goroutines in
which `g` takes the bound's steps: the call ends within the schedule, and each placeholder `g`
built during it has been resolved by then, releasing every call waiting on it, unless `g`
panicked after building it. -/
theorem getCodec_releases (pre : List Action) {g : Nat} (hg : (run e init pre).calls g = [])
    {ts : List TypeId} (hts : ∀ t ∈ ts, ∀ t' ∈ typeChildren e.U t, t' ∈ ts) {k : Key}
    (hk : k.type ∈ ts) (htag : XDRTag.Parsed k.tag) (as : List Action) :
    let s := run e init (pre ++ [.call g (.getCodec k)])
    let K := reachKeys e.U ts k.tag
    (5 * maxLookups e K + 2) * K.length + 4 ≤ stepsOf g as →
      ∃ as₁, as₁ <+: as ∧ (run e s as₁).calls g = [] ∧
        ∀ as₀ d, as₀ <+: as₁ → Frame.job d ∈ (run e s as₀).calls g →
          ((run e s as₁).real d).isSome ∨
            ∃ ps, (run e s as₁).panics = (run e s as₀).panics ++ ps ∧
              ∃ p, (g, p) ∈ ps := by
  intro s K hn
  obtain ⟨hcall, ht, hp⟩ := getCodec_start e hg (K := K)
    (mem_reachKeys.mpr ⟨hk, k.tag, .inl rfl, XDRTag.self_mem_noopSuffixes _⟩)
  have hs : s = (run e init pre).push g (.getCodec k) := (run_append e init pre _).trans hcall
  obtain ⟨as₁, hpre, hidle⟩ :=
    exists_prefix_idle (reachKeys_closed hts htag) (hs ▸ ht) as (hs ▸ hp.trans hn)
  refine ⟨as₁, hpre, hidle, fun as₀ d h₀ hd => ?_⟩
  obtain ⟨rest, rfl⟩ := h₀
  have hheld : Held (run e s as₀) := held_run e (held_run e held_init _) as₀
  rw [run_append] at hidle ⊢
  rcases hheld.release e hd rest with h | h | h
  · rw [hidle] at h
    cases h
  · exact .inl h
  · exact .inr h

/-- A lookup of `Node` on a new coder, run alone for the bound's steps, ends having resolved
every placeholder it built. -/
theorem node_codec_releases :
    let e : Env := ⟨nodeProgram, .w64, false⟩
    let k : Key := ⟨0, []⟩
    let s := run e init ([] ++ [.call 0 (.getCodec k)])
    let as := List.replicate ((5 * maxLookups e (reachKeys e.U [0, 1, 2] k.tag) + 2) *
      (reachKeys e.U [0, 1, 2] k.tag).length + 4) (.step 0)
    ∃ as₁, as₁ <+: as ∧ (run e s as₁).calls 0 = [] ∧
      ∀ as₀ d, as₀ <+: as₁ → Frame.job d ∈ (run e s as₀).calls 0 →
        ((run e s as₁).real d).isSome ∨
          ∃ ps, (run e s as₁).panics = (run e s as₀).panics ++ ps ∧
            ∃ p, (0, p) ∈ ps := by
  have hts : ∀ t ∈ [0, 1, 2], ∀ t' ∈ typeChildren nodeProgram t, t' ∈ [0, 1, 2] := by
    decide
  intro e k s as
  exact getCodec_releases e [] (g := 0) rfl hts (k := k) (by decide) (.inl ⟨[], rfl, rfl⟩) as
    (stepsOf_replicate 0 _).ge

end Registry

end OncXdr
