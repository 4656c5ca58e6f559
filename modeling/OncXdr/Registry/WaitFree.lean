import OncXdr.Registry.Termination
import OncXdr.Registry.EncoderCache

/-!
# OncXdr.Registry.WaitFree — `getCodec` ends whatever the other goroutines do

`getCodec_terminates` runs the calling goroutine alone. Scheduled among any other goroutines,
from any registry state, the call still ends within the same number of its own steps
(`getCodec_wait_free`). Every step of every goroutine only adds entries to `knownCodecs`, gives
out new placeholder numbers and moves jobs on (`Effect.grows`), so no other goroutine's step
raises the caller's potential (`Grows.potential_le`), and each of the caller's own steps lowers
it. No step of the call waits on another goroutine, whether on a lock or on a placeholder.
-/

namespace OncXdr

namespace Registry

open Function

/-! ## What every step does -/

/-- Every scheduling choice grows the registry. -/
theorem Effect.grows {n : Bool} {s s' : Registry} (h : Effect n s s') : Grows s s' := by
  cases h with
  | moves | found => exact ⟨fun _ h => h, fun _ _ => .inl rfl, le_rfl⟩
  | install =>
    exact ⟨fun _ h => isNone_update_some h, fun d hd => .inl (by simp [update_noteq hd.ne]),
      Nat.le_succ _⟩
  | advance st d k c l ls h =>
    exact ⟨fun _ h => h, fun d' _ => .update h (.lookup l ls) d', le_rfl⟩
  | store d k c h =>
    exact ⟨fun _ h => isNone_update_some h, fun d' _ => .update h .store d', le_rfl⟩
  | storeBase d k c h => exact ⟨fun _ h => h, fun d' _ => .update h .storeBase d', le_rfl⟩
  | resolve st d k c h => exact ⟨fun _ h => h, fun d' _ => .update h .resolve d', le_rfl⟩
  | register => exact ⟨fun _ h => isNone_update_some h, fun _ _ => .inl rfl, le_rfl⟩

variable (e : Env)

/-- While `g` is busy, an action other than a step of `g` leaves `g`'s stack as it was. -/
theorem exec_calls_of_ne {s : Registry} {g : Nat} (hg : s.calls g ≠ []) {a : Action}
    (ha : a ≠ .step g) : (exec e s a).calls g = s.calls g := by
  cases a with
  | call h op =>
    simp only [exec]
    split
    · rename_i hh
      have hne : g ≠ h := by rintro rfl; exact hg (List.isEmpty_iff.mp hh)
      simp [push, update_noteq hne]
    · rfl
  | step h =>
    have hne : g ≠ h := fun h' => ha (h' ▸ rfl)
    simp only [exec]
    split
    · rfl
    · exact stepFrame_calls_ne e s hne _

/-- The steps goroutine `g` takes in the schedule `as`. -/
def stepsOf (g : Nat) : List Action → Nat
  | [] => 0
  | .step h :: as => (if h = g then 1 else 0) + stepsOf g as
  | .call .. :: as => stepsOf g as

theorem stepsOf_cons_of_ne {g : Nat} {a : Action} (ha : a ≠ .step g) (as : List Action) :
    stepsOf g (a :: as) = stepsOf g as := by
  cases a with
  | call => rfl
  | step h => simp [stepsOf, show h ≠ g from fun h' => ha (h' ▸ rfl)]

theorem stepsOf_replicate (g n : Nat) : stepsOf g (List.replicate n (.step g)) = n := by
  induction n with
  | zero => rfl
  | succ n ih => simp [List.replicate_succ, stepsOf, ih, Nat.add_comm]

/-! ## The caller among other goroutines -/

section Schedule

variable {e} {K : List Key} {g : Nat}

/-- A step that grows the registry and leaves `g`'s stack alone keeps `g` tracked and its
potential no higher. -/
theorem Grows.potential_le {s s' : Registry} (h : Grows s s') (hc : s'.calls g = s.calls g)
    (ht : Tracked e K g s) : Tracked e K g s' ∧ potential e K g s' ≤ potential e K g s := by
  refine ⟨fun f hf => h.frameIn (ht f (hc ▸ hf)), ?_⟩
  have := h.stackWeight_le ht
  have := Nat.mul_le_mul_left (5 * maxLookups e K + 2) (h.unknown_le (K := K))
  simp only [potential, hc]
  omega

/-- Whatever the schedule, while `g`'s calls have not ended, `g` has taken fewer steps than its
potential. -/
theorem stepsOf_lt_potential (hK : ∀ k ∈ K, ∀ l ∈ childKeys e.U e.w k, l ∈ K) :
    ∀ (as : List Action) {s : Registry}, Tracked e K g s →
      (∀ as₁, as₁ <+: as → (run e s as₁).calls g ≠ []) → stepsOf g as < potential e K g s
  | [], s, _, hr => by
    have hg : s.calls g ≠ [] := hr [] List.nil_prefix
    obtain ⟨f, rest, hg⟩ := List.exists_cons_of_ne_nil hg
    have := one_le_frameWeight s f
    simp only [stepsOf, potential, hg, stackWeight]
    omega
  | a :: as, s, ht, hr => by
    have hg : s.calls g ≠ [] := hr [] List.nil_prefix
    have hr' : ∀ as₁, as₁ <+: as → (run e (exec e s a) as₁).calls g ≠ [] :=
      fun as₁ h => hr (a :: as₁) (List.cons_prefix_cons.mpr ⟨rfl, h⟩)
    by_cases ha : a = .step g
    · -- a step of the caller: its potential drops
      subst ha
      obtain ⟨f, rest, hf⟩ := List.exists_cons_of_ne_nil hg
      have hp := stepFrame_progress hK ht hf
      rw [show exec e s (.step g) = stepFrame e s g f by simp [exec, hf]] at hr'
      have := stepsOf_lt_potential hK as hp.tracked hr'
      have := hp.lt
      rw [stepsOf, if_pos rfl]
      omega
    · -- any other action: the caller's potential does not rise
      obtain ⟨ht', hle⟩ := (exec_effect e s a).grows.potential_le (exec_calls_of_ne e hg ha) ht
      have := stepsOf_lt_potential hK as ht' hr'
      rw [stepsOf_cons_of_ne ha]
      omega

/-- From a state where `g` is tracked, `g`'s calls end within as many of its steps as its
potential, whatever the schedule. -/
theorem exists_prefix_idle (hK : ∀ k ∈ K, ∀ l ∈ childKeys e.U e.w k, l ∈ K) {s : Registry}
    (ht : Tracked e K g s) (as : List Action) (hn : potential e K g s ≤ stepsOf g as) :
    ∃ as₁, as₁ <+: as ∧ (run e s as₁).calls g = [] := by
  by_contra hc
  push_neg at hc
  have := stepsOf_lt_potential hK as ht hc
  omega

end Schedule

/-- `getCodec(t, tag)` on any registry state, for a type of a finite type graph `ts` and a tag
`ParseTag` can return, under any schedule of any other goroutines: once the caller has taken as
many steps as the bound of `getCodec_terminates`, its call has ended. -/
theorem getCodec_wait_free {s : Registry} {g : Nat} (hg : s.calls g = []) {ts : List TypeId}
    (hts : ∀ t ∈ ts, ∀ t' ∈ typeChildren e.U t, t' ∈ ts) {k : Key} (hk : k.type ∈ ts)
    (htag : XDRTag.Parsed k.tag) (as : List Action) :
    let K := reachKeys e.U ts k.tag
    (5 * maxLookups e K + 2) * K.length + 4 ≤ stepsOf g as →
      ∃ as₁, as₁ <+: as ∧ (run e s (.call g (.getCodec k) :: as₁)).calls g = [] := by
  intro K hn
  obtain ⟨hcall, ht, hp⟩ :=
    getCodec_start e hg (K := K)
      (mem_reachKeys.mpr ⟨hk, k.tag, .inl rfl, XDRTag.self_mem_noopSuffixes _⟩)
  simp only [run_cons, hcall]
  exact exists_prefix_idle (reachKeys_closed hts htag) ht as (hp.trans hn)

/-- A lookup of `Node` on a new coder, with goroutine `1` starting a lookup of its own and
taking a step first, has ended once goroutine `0` has taken the bound's steps. -/
theorem node_codec_wait_free :
    let e : Env := ⟨nodeProgram, .w64, false⟩
    let k : Key := ⟨0, []⟩
    ∃ as₁, as₁ <+: (.call 1 (.getCodec k) :: .step 1 :: List.replicate
        ((5 * maxLookups e (reachKeys e.U [0, 1, 2] k.tag) + 2) *
          (reachKeys e.U [0, 1, 2] k.tag).length + 4) (.step 0)) ∧
      (run e init (.call 0 (.getCodec k) :: as₁)).calls 0 = [] := by
  have hts : ∀ t ∈ [0, 1, 2], ∀ t' ∈ typeChildren nodeProgram t, t' ∈ [0, 1, 2] := by
    decide
  intro e k
  exact getCodec_wait_free e (s := init) (g := 0) rfl hts (k := k) (by decide)
    (.inl ⟨[], rfl, rfl⟩) _ ((stepsOf_cons_of_ne (by simp) _).trans
      ((stepsOf_cons_of_ne (by simp) _).trans (stepsOf_replicate 0 _))).ge

end Registry

end OncXdr
