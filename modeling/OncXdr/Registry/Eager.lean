import OncXdr.Registry.Termination
import OncXdr.Registry.Coherence
import OncXdr.Codec.Run
import OncXdr.Codec.TagAgreement

/-!
# OncXdr.Registry.Eager — a lookup on a new `Coder` walks the keys as `construct` does

The codec model decides whether `Encode` and `Decode` panic with `construct`: from a work list
it builds, depth first, each key a lookup reaches that is not built yet, and it stops at the
first panic of `buildCodec`. The registry builds the same keys lazily: `getNewCodec` makes its
builder's `getCodec` calls one at a time, and each lookup loads its key before it builds it.

For one goroutine `g` the two are one walk. The keys `g`'s calls have still to look up, read
from the top of its stack (`pending`), are `construct`'s work list, and the keys `knownCodecs`
holds are the keys `construct` has built (`Mirrors`). Each step of `g` is a step of `construct`
(a lookup finds its key built, builds it, or panics building it) or leaves both lists as they
are, with fewer steps left on the stack (`Walk`, `Mirrors.walk`). So `g`'s call ends as
`construct` does (`Mirrors.ends`): from `NewCoder()` with exactly the keys `construct` built and
no panic, or with the panic `buildCodec` raised, for `Decode`'s `getCodec` and `Encode`'s
`getBaseCodec` alike (`lookup_construct`).
-/

namespace OncXdr

namespace Registry

open Function

/-! ## The keys a goroutine has still to look up -/

/-- The lookups a job has still to make. -/
def jobTodo : Option Job → List Key
  | some (.built _ _ (.building ls)) => ls
  | _ => []

/-- The keys a goroutine's calls will look up, in the order it looks them up. -/
def pending (s : Registry) : List Frame → List Key
  | [] => []
  | .getCodec k :: fs | .getNew k :: fs => k :: pending s fs
  | .getBase t :: fs => ⟨t, []⟩ :: pending s fs
  | .job d :: fs => jobTodo (s.jobs d) ++ pending s fs
  | .register .. :: fs => pending s fs

/-- Calls whose jobs are as they were look up the same keys. -/
theorem pending_congr {s s' : Registry} :
    ∀ {fs : List Frame}, (∀ d, Frame.job d ∈ fs → s'.jobs d = s.jobs d) →
      pending s' fs = pending s fs
  | [], _ => rfl
  | f :: fs, h => by
    have ih := pending_congr fun d hd => h d (.tail _ hd)
    cases f with
    | job d => simp only [pending, h d (.head _), ih]
    | _ => simp only [pending, ih]

/-- Calls whose jobs are as they were have the same steps left. -/
theorem stackWeight_congr {s s' : Registry} :
    ∀ {fs : List Frame}, (∀ d, Frame.job d ∈ fs → s'.jobs d = s.jobs d) →
      stackWeight s' fs = stackWeight s fs
  | [], _ => rfl
  | f :: fs, h => by
    have ih := stackWeight_congr fun d hd => h d (.tail _ hd)
    cases f with
    | job d => simp only [stackWeight, frameWeight, h d (.head _), ih]
    | _ => simp only [stackWeight, frameWeight, ih]

variable (e : Env) (g : Nat)

/-- Goroutine `g` mid-way through the walk `construct` makes with the keys `built` built:
`knownCodecs` holds exactly the keys of `built`, each a codec `xCodec` accepts, and `g` is in
a lookup. -/
structure Mirrors (s : Registry) (built : List Key) : Prop where
  coherent : Coherent s
  known : ∀ k, (s.known k).isSome ↔ k ∈ built
  xcodec : ∀ k x, s.known k = some x → x.isXCodec e.reflectOnly = true
  nested : Nested s.fresh (s.calls g)

/-- What a step of `g` from `s`, mid-way through the walk of `construct` with `built` built,
does to the walk. -/
inductive Walk (s : Registry) (built : List Key) (s' : Registry) : Prop
  /-- The pending keys, the built keys and the panics stay, and fewer steps are left. -/
  | stutter (h : Mirrors e g s' built) (hp : pending s' (s'.calls g) = pending s (s.calls g))
      (hpanics : s'.panics = s.panics)
      (hw : stackWeight s' (s'.calls g) < stackWeight s (s.calls g))
  /-- The next pending key is built, and its lookup returns. -/
  | found (k : Key) (ks : List Key) (hp : pending s (s.calls g) = k :: ks) (hk : k ∈ built)
      (h : Mirrors e g s' built) (hp' : pending s' (s'.calls g) = ks)
      (hpanics : s'.panics = s.panics)
  /-- The next pending key is built now, and its builder's lookups are pending next. -/
  | build (k : Key) (ks : List Key) (b : Built) (hp : pending s (s.calls g) = k :: ks)
      (hk : k ∉ built) (hb : buildCodec e.U e.w k = .ok b) (h : Mirrors e g s' (k :: built))
      (hp' : pending s' (s'.calls g) = b.lookups ++ ks) (hpanics : s'.panics = s.panics)
  /-- Building the next pending key panics, and `g`'s calls unwind. -/
  | panic (k : Key) (ks : List Key) (m : String) (hp : pending s (s.calls g) = k :: ks)
      (hk : k ∉ built) (hb : buildCodec e.U e.w k = .error m) (hc : s'.calls g = [])
      (hpanics : s'.panics = s.panics ++ [(g, .build m)])

/-! ## One step -/

section Walk

variable {e g} {s : Registry} {built : List Key}

theorem pending_append (s : Registry) (fs fs' : List Frame) :
    pending s (fs ++ fs') = pending s fs ++ pending s fs' := by
  induction fs with
  | nil => rfl
  | cons f fs ih => cases f <;> simp [pending, ih]

theorem Mirrors.of_known (h : Mirrors e g s built) {s' : Registry} (hc : Coherent s')
    (hk : s'.known = s.known) (hn : Nested s'.fresh (s'.calls g)) : Mirrors e g s' built :=
  ⟨hc, hk ▸ h.known, hk ▸ h.xcodec, hn⟩

/-- Storing an entry at `k` makes `k` one of the keys with an entry. -/
theorem isSome_update_iff {known : Key → Option Entry} {built : List Key}
    (h : ∀ k, (known k).isSome ↔ k ∈ built) (k : Key) (x : Entry) (k' : Key) :
    (update known k (some x) k').isSome ↔ k' ∈ k :: built := by
  by_cases hk : k' = k
  · subst hk
    simp
  · simp [update_noteq hk, hk, h k']

/-- A step of `g` that replaces its top call `f` by the calls `new`, with the keys `f` had
pending and fewer steps left, and leaves the jobs under `f` as they were, is a stutter. -/
theorem Walk.replace {f : Frame} {rest : List Frame} (hg : s.calls g = f :: rest)
    {s' : Registry} (h' : Mirrors e g s' built) (hpanics : s'.panics = s.panics)
    (new : List Frame) (hc : s'.calls g = new ++ rest)
    (hrest : ∀ d, Frame.job d ∈ rest → s'.jobs d = s.jobs d)
    (hp : pending s' new = pending s [f]) (hw : stackWeight s' new < frameWeight s f) :
    Walk e g s built s' := by
  refine .stutter h' ?_ hpanics ?_
  · rw [hc, hg, pending_append, hp, pending_congr hrest]
    exact (pending_append s [f] rest).symm
  · rw [hc, hg, stackWeight_append, stackWeight_congr hrest]
    simp only [stackWeight]
    omega

/-- A lookup of `k` that loads the entry stored at `k` returns it: `k` is built. -/
theorem Mirrors.found_walk (h : Mirrors e g s built) {f : Frame} {rest : List Frame}
    (hg : s.calls g = f :: rest) (hn : Nested s.fresh rest) {k : Key}
    (hp : pending s (f :: rest) = k :: pending s rest) {x : Entry} (hx : s.known k = some x) :
    Walk e g s built (found e s g k x) := by
  rw [found, if_pos (h.xcodec k x hx)]
  have hc : (s.ret g k x).calls g = rest := by simp [ret, hg]
  refine .found k _ (hg ▸ hp) ((h.known k).mp (by simp [hx]))
    (h.of_known (h.coherent.log_append (h.coherent.found_ok (.inl hx)) _) rfl (hc ▸ hn)) ?_ rfl
  rw [hc]
  exact pending_congr fun _ _ => rfl

/-- Every step of `g` is a stutter or a step of `construct`. -/
theorem Mirrors.stepFrame_walk (h : Mirrors e g s built) {f : Frame} {rest : List Frame}
    (hg : s.calls g = f :: rest) : Walk e g s built (stepFrame e s g f) := by
  have hc := h.coherent.effect (stepFrame_effect e s g f)
  have hnf : Nested s.fresh (f :: rest) := hg ▸ h.nested
  have hn : Nested s.fresh rest := hnf.tail
  -- a lookup that finds nothing goes on as `getNewCodec` for the same key
  have become_walk : ∀ k, pending s [f] = [k] → frameWeight s f = 4 →
      Coherent (s.become g (.getNew k)) → Walk e g s built (s.become g (.getNew k)) :=
    fun k hp hw hc => Walk.replace hg (h.of_known hc rfl (by simpa [become, hg] using hn)) rfl
      [.getNew k] (by simp [become, hg]) (fun _ _ => rfl) (by simp [pending, hp])
      (by rw [hw]; simp [stackWeight, frameWeight])
  cases f with
  | getCodec k =>
    cases hk : s.known k with
    | some x =>
      simp only [stepFrame, hk]
      exact h.found_walk hg hn rfl hk
    | none =>
      simp only [stepFrame, hk] at hc ⊢
      exact become_walk k rfl rfl hc
  | getBase t =>
    cases ht : s.base t with
    | some x =>
      simp only [stepFrame, ht]
      exact h.found_walk hg hn rfl (h.coherent.base_known t x ht).1
    | none =>
      simp only [stepFrame, ht] at hc ⊢
      exact become_walk _ rfl rfl hc
  | getNew k =>
    cases hk : s.known k with
    | some x =>
      simp only [stepFrame, hk]
      exact h.found_walk hg hn rfl hk
    | none =>
      have hkb : k ∉ built := fun hm => by simpa [hk] using (h.known k).mpr hm
      cases hb : buildCodec e.U e.w k with
      | error m =>
        simp only [stepFrame, hk, hb]
        exact .panic k _ m (by rw [hg]; rfl) hkb hb (by simp [abort]) rfl
      | ok b =>
        simp only [stepFrame, hk, hb] at hc ⊢
        -- the jobs under the new one are numbered below it
        have hrest : ∀ d, Frame.job d ∈ rest →
            update s.jobs s.fresh (some (.built k b.codec (.building b.lookups))) d = s.jobs d :=
          fun d hd => update_noteq (by rintro rfl; exact hn.job_not_mem le_rfl hd) _ _
        refine .build k _ b (by rw [hg]; rfl) hkb hb
          ⟨hc, isSome_update_iff h.known k _, xcodec_update h.xcodec rfl, ?_⟩ ?_ rfl
        · simp only [become, hg, update_same, List.tail_cons]
          exact ⟨Nat.lt_succ_self _, hn⟩
        · simp only [become, hg, update_same, List.tail_cons, pending, jobTodo]
          exact congrArg _ (pending_congr hrest)
  | job d =>
    -- the jobs under `d` are numbered below it
    have hrest : ∀ (j : Job) d', Frame.job d' ∈ rest →
        update s.jobs d (some j) d' = s.jobs d' :=
      fun _ d' hd' => update_noteq (by rintro rfl; exact hnf.2.job_not_mem le_rfl hd') _ _
    have pop_walk : jobTodo (s.jobs d) = [] → Coherent (s.pop g) → Walk e g s built (s.pop g) :=
      fun hd hc => Walk.replace hg (h.of_known hc rfl (by simpa [pop, hg] using hn)) rfl []
        (by simp [pop, hg]) (fun _ _ => rfl) (by simp [pending, hd])
        (one_le_frameWeight s _)
    cases hj : s.jobs d with
    | none =>
      simp only [stepFrame, hj] at hc ⊢
      exact pop_walk (by simp [hj, jobTodo]) hc
    | some j =>
      cases j with
      | panicked k m =>
        simp only [stepFrame, hj] at hc ⊢
        exact pop_walk (by simp [hj, jobTodo]) hc
      | built k c st =>
        cases st with
        | building ls =>
          cases ls with
          | cons l ls =>
            simp only [stepFrame, hj] at hc ⊢
            exact Walk.replace hg (h.of_known hc rfl (by simpa [push, hg] using hnf)) rfl
              [.getCodec l, .job d] (by simp [push, hg]) (hrest _)
              (by simp [pending, jobTodo, hj])
              (by simp [stackWeight, frameWeight, jobWeight, hj]; omega)
          | nil =>
            simp only [stepFrame, hj] at hc ⊢
            -- the job's key holds its placeholder, so storing the codec builds no new key
            have hk : s.known k = some (.deferred d) :=
              h.coherent.view_known d k _ (view_eq_some.mpr ⟨_, hj, rfl, rfl⟩)
            have hkb : k ∈ built := (h.known k).mp (by simp [hk])
            refine Walk.replace hg ⟨hc, fun k' => ?_, xcodec_update h.xcodec rfl, h.nested⟩ rfl
              [.job d] (by simpa using hg) (hrest _) (by simp [pending, jobTodo, hj])
              (by simp [stackWeight, frameWeight, jobWeight, hj])
            rw [isSome_update_iff h.known, List.mem_cons]
            exact or_iff_right_of_imp fun he => he ▸ hkb
        | storedKnown =>
          simp only [stepFrame, hj] at hc ⊢
          exact Walk.replace hg (h.of_known hc rfl h.nested) rfl [.job d] (by simpa using hg)
            (hrest _) (by simp [pending, jobTodo, hj])
            (by simp [stackWeight, frameWeight, jobWeight, hj])
        | storedBase =>
          simp only [stepFrame, hj] at hc ⊢
          exact Walk.replace hg (h.of_known hc rfl (by simpa [ret, hg] using hn)) rfl []
            (by simp [ret, hg]) (hrest _) (by simp [pending, jobTodo, hj])
            (by simp [stackWeight, frameWeight, jobWeight, hj])
        | resolved =>
          simp only [stepFrame, hj] at hc ⊢
          exact pop_walk (by simp [hj, jobTodo]) hc
  | register t c => exact hnf.elim

/-- While `g` has calls, its next step is a stutter or a step of `construct`. -/
theorem Mirrors.walk (h : Mirrors e g s built) (hg : s.calls g ≠ []) :
    Walk e g s built (exec e s (.step g)) := by
  obtain ⟨f, rest, hfr⟩ := List.exists_cons_of_ne_nil hg
  simp only [exec, hfr]
  exact h.stepFrame_walk hfr

end Walk

/-! ## Whole calls -/

/-- How `g`'s call ends, by what `construct` returns: after some steps of `g` its stack is
empty, with `knownCodecs` holding exactly the keys `construct` built and no new panic, or with
the panic `buildCodec` raised. Running out of fuel says nothing. -/
def Ends (s : Registry) : Except Fail (List Key) → Prop
  | .ok built => ∃ n, let s' := run e s (List.replicate n (.step g))
      s'.calls g = [] ∧ (∀ k, (s'.known k).isSome ↔ k ∈ built) ∧ s'.panics = s.panics
  | .error (.panic m) => ∃ n, let s' := run e s (List.replicate n (.step g))
      s'.calls g = [] ∧ s'.panics = s.panics ++ [(g, .build m)]
  | .error (.err _) | .error .outOfFuel => True

section Ends

variable {e g} {s : Registry} {built : List Key}

/-- A call ends as it does after its next step, when that step raised no panic. -/
theorem Ends.back {r : Except Fail (List Key)} (h : Ends e g (exec e s (.step g)) r)
    (hp : (exec e s (.step g)).panics = s.panics) : Ends e g s r :=
  match r, h with
  | .ok _, ⟨n, h⟩ => ⟨n + 1, by rwa [List.replicate_succ, run_cons, ← hp]⟩
  | .error (.panic _), ⟨n, h⟩ => ⟨n + 1, by rwa [List.replicate_succ, run_cons, ← hp]⟩
  | .error (.err _), _ | .error .outOfFuel, _ => trivial

/-- With no calls left, the call has ended with the keys built. -/
theorem Mirrors.ends_idle (h : Mirrors e g s built) (hg : s.calls g = []) (n : Nat) :
    Ends e g s (construct e n (pending s (s.calls g)) built) := by
  simp only [hg, pending, construct]
  exact ⟨0, hg, h.known, rfl⟩

/-- The call ends as `construct` with fuel `n` does, given that it does from every state a
step of `construct` reaches with less fuel: by induction on the steps left on the stack, which
every stutter lowers. -/
theorem Mirrors.ends_of_lt {n : Nat}
    (ih : ∀ m < n, ∀ {s : Registry} {built : List Key}, Mirrors e g s built →
      Ends e g s (construct e m (pending s (s.calls g)) built)) (w : Nat) :
    ∀ {s : Registry} {built : List Key}, Mirrors e g s built → stackWeight s (s.calls g) < w →
      Ends e g s (construct e n (pending s (s.calls g)) built) := by
  induction w with
  | zero => exact fun _ hw => absurd hw (Nat.not_lt_zero _)
  | succ w ihw =>
    intro s built h hw
    by_cases hg : s.calls g = []
    · exact h.ends_idle hg n
    cases h.walk hg with
    | stutter h' hp hpanics hlt =>
      rw [← hp]
      exact (ihw h' (by omega)).back hpanics
    | found k ks hp hk h' hp' hpanics =>
      rw [hp]
      cases n with
      | zero => trivial
      | succ m =>
        rw [construct, if_pos hk, ← hp']
        exact (ih m (Nat.lt_succ_self m) h').back hpanics
    | build k ks b hp hk hb h' hp' hpanics =>
      rw [hp]
      cases n with
      | zero => trivial
      | succ m =>
        simp only [construct, if_neg hk, hb]
        rw [← hp']
        exact (ih m (Nat.lt_succ_self m) h').back hpanics
    | panic k ks msg hp hk hb hc hpanics =>
      rw [hp]
      cases n with
      | zero => trivial
      | succ m =>
        simp only [construct, if_neg hk, hb]
        exact ⟨1, hc, hpanics⟩

/-- From a state mirroring `construct` with `built` built, `g`'s call ends as `construct` on
`g`'s pending keys does, with any fuel. -/
theorem Mirrors.ends (n : Nat) (h : Mirrors e g s built) :
    Ends e g s (construct e n (pending s (s.calls g)) built) := by
  induction n using Nat.strong_induction_on generalizing s built with
  | _ n ih => exact ends_of_lt (fun m hm _ _ h' => ih m hm h') _ h (Nat.lt_succ_self _)

end Ends

/-- On a new `Coder`, goroutine `g`'s lookup of a key, by `getCodec(t, tag)` (as `Decode` makes
it) or by `getBaseCodec(t)` for an empty tag (as `Encode` makes it), run alone, ends as
`construct` from that key does: when `construct` builds the keys `built`, the call returns with
no panic and `knownCodecs` holding exactly those keys; when `buildCodec` panics with `msg` on a
key `construct` reaches, the call unwinds with that panic. -/
theorem lookup_construct (g n : Nat) {op : Op} {k : Key}
    (hop : op = .getCodec k ∨ op = .getBase k.type ∧ k.tag = []) :
    (∀ built, construct e n [k] [] = .ok built → ∃ m,
      let s := run e init (.call g op :: List.replicate m (.step g))
      s.calls g = [] ∧ s.panics = [] ∧ ∀ l, (s.known l).isSome ↔ l ∈ built) ∧
    (∀ msg, construct e n [k] [] = .error (.panic msg) → ∃ m,
      let s := run e init (.call g op :: List.replicate m (.step g))
      s.calls g = [] ∧ s.panics = [(g, .build msg)]) := by
  have hs : exec e init (.call g op) = init.push g op.frame := rfl
  have h : Mirrors e g (init.push g op.frame) [] :=
    ⟨hs ▸ coherent_run e coherent_init [.call g op], fun _ => by simp [push, init],
      fun _ _ hx => (nomatch hx),
      by rcases hop with rfl | ⟨rfl, -⟩ <;> simp [push, Nested, Op.frame]⟩
  -- the call has its key pending, and nothing else
  have hp : pending (init.push g op.frame) ((init.push g op.frame).calls g) = [k] := by
    rcases hop with rfl | ⟨rfl, ht⟩
    · simp [push, pending, Op.frame]
    · obtain ⟨t, tag⟩ := k
      dsimp only at ht
      subst ht
      simp [push, pending, Op.frame]
  have H := h.ends n
  rw [hp] at H
  refine ⟨fun built hb => ?_, fun msg hb => ?_⟩
  · rw [hb] at H
    obtain ⟨m, hc, hk, hpanics⟩ := H
    exact ⟨m, hc, hpanics, hk⟩
  · rw [hb] at H
    obtain ⟨m, hc, hpanics⟩ := H
    exact ⟨m, hc, hpanics⟩

/-- `Decode`'s lookup of `Node` alone on a new coder ends having built `*Node`, `int32` and
`Node`, the keys `construct` builds; `Encode`'s lookup of `U`, whose `int8` switch `buildCodec`
rejects, ends with that panic. -/
theorem node_builds_switch_panics :
    (∃ m,
      let s := run ⟨nodeProgram, .w64, false⟩ init
        (.call 0 (.getCodec ⟨0, []⟩) :: List.replicate m (.step 0))
      s.calls 0 = [] ∧ s.panics = [] ∧
        ∀ l, (s.known l).isSome ↔ l ∈ [⟨2, []⟩, ⟨1, []⟩, ⟨0, []⟩]) ∧
    (∃ m,
      let s := run ⟨int8SwitchProgram, .w64, false⟩ init
        (.call 0 (.getBase 0) :: List.replicate m (.step 0))
      s.calls 0 = [] ∧ s.panics =
        [(0, .build "Switch field of union not valid (must be int32, uint32 or bool)")]) :=
  ⟨(lookup_construct ⟨nodeProgram, .w64, false⟩ 0 10 (.inl rfl)).1 _ rfl,
    (lookup_construct ⟨int8SwitchProgram, .w64, false⟩ 0 10 (k := ⟨0, []⟩)
      (.inr ⟨rfl, rfl⟩)).2 _ rfl⟩

end Registry

end OncXdr
