import OncXdr.Registry.State

/-!
# OncXdr.Registry.Coherence — the registry stays coherent under every interleaving

`Effect s s'` says once what a scheduling choice can do to the registry: move goroutines'
stacks; return a codec it found; install a placeholder and record the build of its key;
advance, store, base-store or resolve a job; store a registered codec. `exec_effect` proves
that every choice is one of these, and every invariant below is derived from `Effect` alone,
never from `stepFrame` again.

`Coherent` is the invariant: placeholders are installed at most once per key, each job's key
holds its placeholder until its codec is stored and that codec afterwards, base codecs and
resolved placeholders agree with `knownCodecs`, and every lookup returned what its key holds or
the placeholder made for that key. `registry_coherent` states it of every run from
`NewCoder()`, with the stability of stored codecs along any continuation. Two lookups of one key
therefore run one codec, whichever of them got a placeholder (`lookups_agree`).
-/

namespace OncXdr

/-- The entry a job's key holds: the job's placeholder until the codec is stored, then the
codec. -/
def Job.entry (d : Nat) : Job → Entry
  | .built _ _ (.building _) | .panicked .. => .deferred d
  | .built _ c _ => .built c

namespace Registry

open Function

/-- What one scheduling choice can do to a registry `s`. -/
inductive Effect (reflectOnly : Bool) (s : Registry) : Registry → Prop
  /-- Only the goroutines' calls change (and a panic may be raised). -/
  | moves (st : Nat → List Frame) (ps : List (Nat × RegistryPanic)) :
      Effect reflectOnly s { s with calls := st, panics := ps }
  /-- A lookup returns the entry `x` it loaded for `k`, which passed `x.(xCodec)`. -/
  | found (st : Nat → List Frame) (k : Key) (x : Entry)
      (h : s.known k = some x ∨ ∃ t, k = ⟨t, []⟩ ∧ s.base t = some x)
      (hx : x.isXCodec reflectOnly = true) :
      Effect reflectOnly s { s with calls := st, log := s.log ++ [(k, x)] }
  /-- `LoadOrStore` installs a fresh placeholder for `k`, and `buildCodec` runs. -/
  | install (st : Nat → List Frame) (ps : List (Nat × RegistryPanic)) (k : Key) (j : Job)
      (hk : s.known k = none) (hj : j.key = k) (he : j.entry s.fresh = .deferred s.fresh) :
      Effect reflectOnly s { s with
        known := update s.known k (some (.deferred s.fresh))
        fresh := s.fresh + 1
        jobs := update s.jobs s.fresh (some j)
        calls := st
        panics := ps }
  /-- A build makes its next `getCodec` call. -/
  | advance (st : Nat → List Frame) (d : Nat) (k : Key) (c : Codec) (l : Key) (ls : List Key)
      (h : s.jobs d = some (.built k c (.building (l :: ls)))) :
      Effect reflectOnly s { s with jobs := update s.jobs d (some (.built k c (.building ls))), calls := st }
  /-- `knownCodecs.Store(xt, cc)`. -/
  | store (d : Nat) (k : Key) (c : Codec) (h : s.jobs d = some (.built k c (.building []))) :
      Effect reflectOnly s { s with
        known := update s.known k (some (.built c))
        jobs := update s.jobs d (some (.built k c .storedKnown)) }
  /-- `knownBaseCodecs.Store(t, cc)` when the tag is empty. -/
  | storeBase (d : Nat) (k : Key) (c : Codec) (h : s.jobs d = some (.built k c .storedKnown)) :
      Effect reflectOnly s { s with
        base := if k.tag = [] then update s.base k.type (some (.built c)) else s.base
        jobs := update s.jobs d (some (.built k c .storedBase)) }
  /-- `dc.resolve(cc)`, and `getNewCodec` returns `cc`. -/
  | resolve (st : Nat → List Frame) (d : Nat) (k : Key) (c : Codec)
      (h : s.jobs d = some (.built k c .storedBase)) :
      Effect reflectOnly s { s with
        real := update s.real d (some (.built c))
        jobs := update s.jobs d (some (.built k c .resolved))
        calls := st
        log := s.log ++ [(k, .built c)] }
  /-- `RegisterCodecReflect` stores its codec at `(t, "")`. -/
  | register (st : Nat → List Frame) (t : TypeId) (c : Nat) (h : s.known ⟨t, []⟩ = none) :
      Effect reflectOnly s { s with known := update s.known ⟨t, []⟩ (some (.user c)), calls := st }

variable (e : Env)

/-- The registry unchanged is one of the `Effect`s. -/
theorem Effect.refl (n : Bool) (s : Registry) : Effect n s s := .moves s.calls s.panics

theorem found_effect {s : Registry} {g : Nat} {k : Key} {x : Entry}
    (h : s.known k = some x ∨ ∃ t, k = ⟨t, []⟩ ∧ s.base t = some x) :
    Effect e.reflectOnly s (found e s g k x) := by
  unfold found
  split
  · exact .found _ k x h ‹_›
  · exact .moves _ _

theorem stepFrame_effect (s : Registry) (g : Nat) (f : Frame) :
    Effect e.reflectOnly s (stepFrame e s g f) := by
  cases f with
  | getCodec k =>
    simp only [stepFrame]
    split
    · exact found_effect e (.inl ‹_›)
    · exact .moves _ _
  | getBase t =>
    simp only [stepFrame]
    split
    · exact found_effect e (.inr ⟨t, rfl, ‹_›⟩)
    · exact .moves _ _
  | getNew k =>
    simp only [stepFrame]
    split
    · exact found_effect e (.inl ‹_›)
    · rename_i hk
      split
      · exact .install _ _ k (.panicked k _) hk rfl rfl
      · exact .install _ _ k (.built k _ (.building _)) hk rfl rfl
  | job d =>
    simp only [stepFrame]
    split
    · exact .advance _ d _ _ _ _ ‹_›
    · exact .store d _ _ ‹_›
    · exact .storeBase d _ _ ‹_›
    · exact .resolve _ d _ _ ‹_›
    · exact .moves _ _
  | register t c =>
    simp only [stepFrame]
    split
    · exact .moves _ _
    · split
      · exact .moves _ _
      · split
        · exact .register _ t c ‹_›
        · split
          · exact .moves _ _
          · split <;> exact .moves _ _

/-- Every scheduling choice is one of the `Effect`s. -/
theorem exec_effect (s : Registry) (a : Action) : Effect e.reflectOnly s (exec e s a) := by
  cases a with
  | call g op =>
    simp only [exec]
    split
    · exact .moves _ _
    · exact .refl _ s
  | step g =>
    simp only [exec]
    split
    · exact .refl _ s
    · exact stepFrame_effect e s g _

/-! ## The invariant -/

/-- What the invariant reads of the jobs: for each placeholder, the key it was made for and the
entry that key holds by the job's progress. -/
def viewOf (jobs : Nat → Option Job) (d : Nat) : Option (Key × Entry) :=
  (jobs d).map fun j => (j.key, j.entry d)

/-- The jobs of a registry as the invariant reads them. -/
def view (s : Registry) : Nat → Option (Key × Entry) := viewOf s.jobs

theorem viewOf_update (jobs : Nat → Option Job) (d : Nat) (j : Job) :
    viewOf (update jobs d (some j)) = update (viewOf jobs) d (some (j.key, j.entry d)) := by
  funext d'
  by_cases h : d' = d
  · subst h; simp [viewOf]
  · simp [viewOf, update_noteq h]

/-- A job replaced by one for the same key and entry is seen the same. -/
theorem viewOf_update_same {jobs : Nat → Option Job} {d : Nat} {j j' : Job}
    (h : jobs d = some j) (hk : j'.key = j.key) (he : j'.entry d = j.entry d) :
    viewOf (update jobs d (some j')) = viewOf jobs := by
  rw [viewOf_update, hk, he]
  exact update_eq_self_iff.mpr (by simp [viewOf, h])

/-- The invariant of every reachable registry. -/
structure Coherent (s : Registry) : Prop where
  /-- No placeholder is numbered `fresh` or above yet. -/
  fresh_free : ∀ d, s.fresh ≤ d → s.view d = none
  /-- At most one `getNewCodec` call has built each key. -/
  view_inj : ∀ d d' k x x', s.view d = some (k, x) → s.view d' = some (k, x') → d = d'
  /-- A job's key holds the job's entry. -/
  view_known : ∀ d k x, s.view d = some (k, x) → s.known k = some x
  /-- A placeholder in `knownCodecs` was made for the key it is stored at. -/
  deferred_view : ∀ k d, s.known k = some (.deferred d) → ∃ x, s.view d = some (k, x)
  /-- `knownBaseCodecs[t]` is the codec stored at `(t, "")`. -/
  base_known : ∀ t x, s.base t = some x → s.known ⟨t, []⟩ = some x ∧ x.isDeferred = false
  /-- A resolved placeholder forwards to the codec its job stored. -/
  real_known : ∀ d x, s.real d = some x → ∃ k, s.view d = some (k, x) ∧ x.isDeferred = false
  /-- Every lookup returned the codec its key holds, or the placeholder made for that key. -/
  log_known : ∀ k x, (k, x) ∈ s.log →
    (s.known k = some x ∧ x.isDeferred = false) ∨ ∃ d, x = .deferred d ∧ ∃ y, s.view d = some (k, y)

theorem coherent_init : Coherent init where
  fresh_free _ _ := rfl
  view_inj _ _ _ _ _ h := nomatch h
  view_known _ _ _ h := nomatch h
  deferred_view _ _ h := nomatch h
  base_known _ _ h := nomatch h
  real_known _ _ h := nomatch h
  log_known _ _ h := nomatch h

/-- A key holding a codec other than a placeholder is not the key of a placeholder there. -/
theorem known_ne_of_deferred {s : Registry} {k k' : Key} {d : Nat} (hk : s.known k = some (.deferred d)) {x : Entry}
    (hx : x.isDeferred = false) (h : s.known k' = some x) : k' ≠ k := by
  rintro rfl
  rw [hk] at h
  cases h
  simp [Entry.isDeferred] at hx

namespace Coherent

variable {s : Registry} (hs : Coherent s)
include hs

/-- A placeholder's number is below `fresh`. -/
theorem lt_fresh {d : Nat} {v : Key × Entry} (h : s.view d = some v) : d < s.fresh :=
  Nat.lt_of_not_le fun hd => by simp [hs.fresh_free d hd] at h

/-- A key with no entry has no job. -/
theorem key_ne_of_none {k k' : Key} (hk : s.known k = none) {d : Nat} {x : Entry}
    (h : s.view d = some (k', x)) : k' ≠ k := by
  rintro rfl
  simp [hs.view_known d k' x h] at hk

/-- A lookup that returned what its key holds satisfies the log invariant. -/
theorem found_ok {k : Key} {x : Entry}
    (h : s.known k = some x ∨ ∃ t, k = ⟨t, []⟩ ∧ s.base t = some x) :
    (s.known k = some x ∧ x.isDeferred = false) ∨ ∃ d, x = .deferred d ∧ ∃ y, s.view d = some (k, y) := by
  rcases h with h | ⟨t, rfl, h⟩
  · cases x with
    | deferred d => exact .inr ⟨d, rfl, hs.deferred_view _ _ h⟩
    | built c => exact .inl ⟨h, rfl⟩
    | user c => exact .inl ⟨h, rfl⟩
  · exact .inl (hs.base_known t x h)

theorem log_append {k : Key} {x : Entry}
    (h : (s.known k = some x ∧ x.isDeferred = false) ∨ ∃ d, x = .deferred d ∧ ∃ y, s.view d = some (k, y))
    (st : Nat → List Frame) :
    Coherent { s with calls := st, log := s.log ++ [(k, x)] } :=
  { hs with
    log_known := fun k' x' hm => by
      rcases List.mem_append.mp hm with hm | hm
      · exact hs.log_known k' x' hm
      · obtain ⟨rfl, rfl⟩ := Prod.mk.inj (List.mem_singleton.mp hm)
        exact h }

/-- The invariant reads only the maps, `fresh`, the jobs' view and the log. -/
theorem of_eq {s' : Registry} (hk : s'.known = s.known) (hb : s'.base = s.base)
    (hr : s'.real = s.real) (hf : s'.fresh = s.fresh) (hv : s'.view = s.view)
    (hl : s'.log = s.log) : Coherent s' := by
  obtain ⟨h₁, h₂, h₃, h₄, h₅, h₆, h₇⟩ := hs
  constructor <;> simp only [hk, hb, hr, hf, hv, hl] <;> assumption

/-- Only the goroutines' calls and the panics change. -/
theorem moves (st : Nat → List Frame) (ps : List (Nat × RegistryPanic)) :
    Coherent { s with calls := st, panics := ps } :=
  hs.of_eq rfl rfl rfl rfl rfl rfl

/-- A build's next `getCodec` call changes neither its key nor its key's entry. -/
theorem advance {d : Nat} {k : Key} {c : Codec} {l : Key} {ls : List Key}
    (h : s.jobs d = some (.built k c (.building (l :: ls)))) (st : Nat → List Frame) :
    Coherent { s with jobs := update s.jobs d (some (.built k c (.building ls))), calls := st } :=
  hs.of_eq rfl rfl rfl rfl (viewOf_update_same h rfl rfl) rfl

/-- `LoadOrStore` installs a fresh placeholder at a key with no entry. -/
theorem install {k : Key} {j : Job} (hk : s.known k = none) (hj : j.key = k)
    (he : j.entry s.fresh = .deferred s.fresh) (st : Nat → List Frame)
    (ps : List (Nat × RegistryPanic)) :
    Coherent { s with
      known := update s.known k (some (.deferred s.fresh))
      fresh := s.fresh + 1
      jobs := update s.jobs s.fresh (some j)
      calls := st
      panics := ps } := by
  have hv : viewOf (update s.jobs s.fresh (some j)) =
      update s.view s.fresh (some (k, .deferred s.fresh)) := by
    rw [viewOf_update, hj, he]; rfl
  -- old placeholders are numbered below `fresh`, and their keys are not `k`
  have old : ∀ {d k' x}, s.view d = some (k', x) → d ≠ s.fresh ∧ k' ≠ k :=
    fun h => ⟨(hs.lt_fresh h).ne, hs.key_ne_of_none hk h⟩
  have known_old : ∀ {k' x}, s.known k' = some x → k' ≠ k := by
    rintro k' x h rfl; simp [hk] at h
  constructor <;> simp only [view, hv]
  · intro d hd
    rw [update_noteq (by omega)]
    exact hs.fresh_free d (by omega)
  · intro d d' k' x x' h h'
    by_cases hd : d = s.fresh <;> by_cases hd' : d' = s.fresh
    · rw [hd, hd']
    · subst hd; simp at h; exact absurd h.1.symm (old (by rwa [update_noteq hd'] at h')).2
    · subst hd'; simp at h'; exact absurd h'.1.symm (old (by rwa [update_noteq hd] at h)).2
    · rw [update_noteq hd] at h; rw [update_noteq hd'] at h'
      exact hs.view_inj d d' k' x x' h h'
  · intro d k' x h
    by_cases hd : d = s.fresh
    · subst hd; simp at h; obtain ⟨rfl, rfl⟩ := h; simp
    · rw [update_noteq hd] at h
      rw [update_noteq (old h).2]
      exact hs.view_known d k' x h
  · intro k' d h
    by_cases hk' : k' = k
    · subst hk'; simp at h; subst h; simp
    · rw [update_noteq hk'] at h
      obtain ⟨x, hx⟩ := hs.deferred_view k' d h
      exact ⟨x, by rwa [update_noteq (old hx).1]⟩
  · intro t x h
    have := hs.base_known t x h
    exact ⟨by rw [update_noteq (known_old this.1)]; exact this.1, this.2⟩
  · intro d x h
    obtain ⟨k', hk', hx⟩ := hs.real_known d x h
    exact ⟨k', by rwa [update_noteq (old hk').1], hx⟩
  · intro k' x hm
    rcases hs.log_known k' x hm with ⟨h, hx⟩ | ⟨d, rfl, y, hy⟩
    · exact .inl ⟨by rw [update_noteq (known_old h)]; exact h, hx⟩
    · exact .inr ⟨d, rfl, y, by rwa [update_noteq (old hy).1]⟩

/-- `knownCodecs.Store(xt, cc)` replaces the job's placeholder by its codec. -/
theorem store {d : Nat} {k : Key} {c : Codec} (h : s.jobs d = some (.built k c (.building []))) :
    Coherent { s with
      known := update s.known k (some (.built c))
      jobs := update s.jobs d (some (.built k c .storedKnown)) } := by
  have hd : s.view d = some (k, .deferred d) := by simp [view, viewOf, h, Job.key, Job.entry]
  have hkd : s.known k = some (.deferred d) := hs.view_known d k _ hd
  have hv : viewOf (update s.jobs d (some (.built k c .storedKnown))) =
      update s.view d (some (k, .built c)) := viewOf_update _ _ _
  -- every other placeholder was made for another key
  have old : ∀ {d' k' x}, s.view d' = some (k', x) → d' ≠ d → k' ≠ k :=
    fun h' hne hk' => hne (hs.view_inj _ _ _ _ _ h' (hk' ▸ hd))
  constructor <;> simp only [view, hv]
  · intro d' hd'
    rw [update_noteq (by have := hs.lt_fresh hd; omega)]
    exact hs.fresh_free d' hd'
  · intro d₁ d₂ k' x x' h₁ h₂
    by_cases e₁ : d₁ = d <;> by_cases e₂ : d₂ = d
    · rw [e₁, e₂]
    · subst e₁; rw [update_noteq e₂] at h₂; simp at h₁; exact absurd h₁.1.symm (old h₂ e₂)
    · subst e₂; rw [update_noteq e₁] at h₁; simp at h₂; exact absurd h₂.1.symm (old h₁ e₁)
    · rw [update_noteq e₁] at h₁; rw [update_noteq e₂] at h₂
      exact hs.view_inj _ _ _ _ _ h₁ h₂
  · intro d' k' x h'
    by_cases e' : d' = d
    · subst e'; simp at h'; obtain ⟨rfl, rfl⟩ := h'; simp
    · rw [update_noteq e'] at h'
      rw [update_noteq (old h' e')]
      exact hs.view_known _ _ _ h'
  · intro k' d' h'
    have hk' : k' ≠ k := by rintro rfl; simp at h'
    rw [update_noteq hk'] at h'
    obtain ⟨x, hx⟩ := hs.deferred_view k' d' h'
    have e' : d' ≠ d := by rintro rfl; rw [hd] at hx; cases hx; exact hk' rfl
    exact ⟨x, by rwa [update_noteq e']⟩
  · intro t x h'
    obtain ⟨h₁, h₂⟩ := hs.base_known t x h'
    exact ⟨by rw [update_noteq (known_ne_of_deferred hkd h₂ h₁)]; exact h₁, h₂⟩
  · intro d' x h'
    obtain ⟨k', hk', hx⟩ := hs.real_known d' x h'
    have e' : d' ≠ d := by rintro rfl; rw [hd] at hk'; cases hk'; simp [Entry.isDeferred] at hx
    exact ⟨k', by rwa [update_noteq e'], hx⟩
  · intro k' x hm
    rcases hs.log_known k' x hm with ⟨h₁, h₂⟩ | ⟨d', rfl, y, hy⟩
    · exact .inl ⟨by rw [update_noteq (known_ne_of_deferred hkd h₂ h₁)]; exact h₁, h₂⟩
    · by_cases e' : d' = d
      · subst e'; rw [hd] at hy; cases hy; exact .inr ⟨d', rfl, .built c, by simp⟩
      · exact .inr ⟨d', rfl, y, by rwa [update_noteq e']⟩

/-- Storing at `knownBaseCodecs[t]` the codec that `(t, "")` holds. -/
theorem setBase {t : TypeId} {x : Entry} (hk : s.known ⟨t, []⟩ = some x)
    (hx : x.isDeferred = false) : Coherent { s with base := update s.base t (some x) } :=
  { hs with
    base_known := fun t' x' h => by
      dsimp only at h ⊢
      by_cases e : t' = t
      · subst e; simp at h; subst h; exact ⟨hk, hx⟩
      · rw [update_noteq e] at h; exact hs.base_known t' x' h }

/-- `knownBaseCodecs.Store(t, cc)` after the codec of `(t, "")` was stored. -/
theorem storeBase {d : Nat} {k : Key} {c : Codec} (h : s.jobs d = some (.built k c .storedKnown)) :
    Coherent { s with
      base := if k.tag = [] then update s.base k.type (some (.built c)) else s.base
      jobs := update s.jobs d (some (.built k c .storedBase)) } := by
  have hj : Coherent { s with jobs := update s.jobs d (some (.built k c .storedBase)) } :=
    hs.of_eq rfl rfl rfl rfl (viewOf_update_same h rfl rfl) rfl
  split
  · rename_i ht
    have hk : s.known ⟨k.type, []⟩ = some (.built c) := by
      rw [← ht]; exact hs.view_known d k _ (by simp [view, viewOf, h, Job.key, Job.entry])
    exact hj.setBase hk rfl
  · exact hj

/-- `dc.resolve(cc)` once the codec is stored, and `getNewCodec` returns it. -/
theorem resolve {d : Nat} {k : Key} {c : Codec} (h : s.jobs d = some (.built k c .storedBase))
    (st : Nat → List Frame) :
    Coherent { s with
      real := update s.real d (some (.built c))
      jobs := update s.jobs d (some (.built k c .resolved))
      calls := st
      log := s.log ++ [(k, .built c)] } := by
  have hd : s.view d = some (k, .built c) := by simp [view, viewOf, h, Job.key, Job.entry]
  have hv : viewOf (update s.jobs d (some (.built k c .resolved))) = s.view :=
    viewOf_update_same h rfl rfl
  have hj₀ : Coherent { s with jobs := update s.jobs d (some (.built k c .resolved)) } :=
    hs.of_eq rfl rfl rfl rfl hv rfl
  have hj : Coherent { s with
      real := update s.real d (some (.built c))
      jobs := update s.jobs d (some (.built k c .resolved)) } :=
    { hj₀ with
      real_known := fun d' x h' => by
        dsimp only [view] at h' ⊢
        rw [hv]
        by_cases e : d' = d
        · subst e; simp at h'; subst h'; exact ⟨k, hd, rfl⟩
        · rw [update_noteq e] at h'; exact hs.real_known d' x h' }
  exact hj.log_append (.inl ⟨hs.view_known d k _ hd, rfl⟩) st

/-- `RegisterCodecReflect` stores its codec at `(t, "")`, which held nothing. -/
theorem register {t : TypeId} {c : Nat} (h : s.known ⟨t, []⟩ = none) (st : Nat → List Frame) :
    Coherent { s with known := update s.known ⟨t, []⟩ (some (.user c)), calls := st } := by
  have other : ∀ {k x}, s.known k = some x → k ≠ ⟨t, []⟩ := by rintro k x hk rfl; simp [h] at hk
  constructor <;> try dsimp only
  · exact hs.fresh_free
  · exact hs.view_inj
  · intro d k x h'
    rw [update_noteq (other (hs.view_known d k x h'))]
    exact hs.view_known d k x h'
  · intro k d h'
    have hk : k ≠ ⟨t, []⟩ := by rintro rfl; simp at h'
    rw [update_noteq hk] at h'
    exact hs.deferred_view k d h'
  · intro t' x h'
    obtain ⟨h₁, h₂⟩ := hs.base_known t' x h'
    exact ⟨by rw [update_noteq (other h₁)]; exact h₁, h₂⟩
  · exact hs.real_known
  · intro k x hm
    rcases hs.log_known k x hm with ⟨h₁, h₂⟩ | h'
    · exact .inl ⟨by rw [update_noteq (other h₁)]; exact h₁, h₂⟩
    · exact .inr h'

/-- Every effect keeps the invariant. -/
theorem effect {n : Bool} {s' : Registry} (h : Effect n s s') : Coherent s' := by
  cases h with
  | moves st ps => exact hs.moves st ps
  | found st k x h => exact hs.log_append (hs.found_ok h) st
  | install st ps k j hk hj he => exact hs.install hk hj he st ps
  | advance st d k c l ls h => exact hs.advance h st
  | store d k c h => exact hs.store h
  | storeBase d k c h => exact hs.storeBase h
  | resolve st d k c h => exact hs.resolve h st
  | register st t c h => exact hs.register h st

/-- A codec stored at a key, other than a placeholder, stays there. -/
theorem known_stable {n : Bool} {s' : Registry} (h : Effect n s s') {k : Key} {x : Entry}
    (hk : s.known k = some x) (hx : x.isDeferred = false) : s'.known k = some x := by
  cases h with
  | install st ps k' j hk' =>
    exact (update_noteq (fun e => by subst e; simp [hk'] at hk) _ _).trans hk
  | store d k' c h =>
    have hkd : s.known k' = some (.deferred d) :=
      hs.view_known d k' _ (by simp [view, viewOf, h, Job.key, Job.entry])
    exact (update_noteq (known_ne_of_deferred hkd hx hk) _ _).trans hk
  | register st t c h =>
    exact (update_noteq (fun e => by subst e; simp [h] at hk) _ _).trans hk
  | _ => exact hk

end Coherent

/-- Every run keeps the invariant. -/
theorem coherent_run {s : Registry} (hs : Coherent s) (as : List Action) :
    Coherent (run e s as) := by
  induction as generalizing s with
  | nil => exact hs
  | cons a as ih => exact ih (hs.effect (exec_effect e s a))

/-- Along a run, a codec stored at a key, other than a placeholder, stays there. -/
theorem known_stable_run {s : Registry} (hs : Coherent s) (as : List Action) {k : Key}
    {x : Entry} (hk : s.known k = some x) (hx : x.isDeferred = false) :
    (run e s as).known k = some x := by
  induction as generalizing s with
  | nil => exact hk
  | cons a as ih =>
    exact ih (hs.effect (exec_effect e s a)) (hs.known_stable (exec_effect e s a) hk hx)


/-- A job as the invariant sees it. -/
theorem view_eq_some {s : Registry} {d : Nat} {k : Key} {x : Entry} :
    s.view d = some (k, x) ↔ ∃ j, s.jobs d = some j ∧ j.key = k ∧ j.entry d = x := by
  simp [view, viewOf]

/-- The registry under any interleaving of any goroutines' calls, from `NewCoder()`: at most
one `buildCodec` has run for each key; a codec stored at a key, other than a placeholder, stays
there whatever runs next; `knownBaseCodecs[t]` is the codec stored at `(t, "")`; a resolved
placeholder forwards to the codec stored at the key it was made for; and every lookup of a
key returned the entry the key holds, or the placeholder made for that key, which once
resolved forwards to the codec the key holds. -/
theorem registry_coherent (as bs : List Action) :
    let s := run e init as
    (∀ d d' j j', s.jobs d = some j → s.jobs d' = some j' → j.key = j'.key → d = d') ∧
    (∀ k x, s.known k = some x → x.isDeferred = false → (run e s bs).known k = some x) ∧
    (∀ t x, s.base t = some x → s.known ⟨t, []⟩ = some x) ∧
    (∀ d x, s.real d = some x → ∃ j, s.jobs d = some j ∧ s.known j.key = some x) ∧
    (∀ k x, (k, x) ∈ s.log → s.known k = some x ∨
      ∃ d j, x = .deferred d ∧ s.jobs d = some j ∧ j.key = k ∧
        ∀ y, s.real d = some y → s.known k = some y) := by
  intro s
  have hs : Coherent s := coherent_run e coherent_init as
  have hview : ∀ {d j}, s.jobs d = some j → s.view d = some (j.key, j.entry d) :=
    fun h => view_eq_some.mpr ⟨_, h, rfl, rfl⟩
  refine ⟨fun d d' j j' h h' hk => hs.view_inj d d' j.key _ _ (hview h) (hk ▸ hview h'),
    fun k x hk hx => known_stable_run e hs bs hk hx, fun t x h => (hs.base_known t x h).1,
    fun d x h => ?_, fun k x hm => ?_⟩
  · obtain ⟨k, hk, -⟩ := hs.real_known d x h
    obtain ⟨j, hj, rfl, -⟩ := view_eq_some.mp hk
    exact ⟨j, hj, hs.view_known d _ x hk⟩
  · rcases hs.log_known k x hm with ⟨h, -⟩ | ⟨d, rfl, y, hy⟩
    · exact .inl h
    · obtain ⟨j, hj, rfl, -⟩ := view_eq_some.mp hy
      refine .inr ⟨d, j, rfl, hj, rfl, fun z hz => ?_⟩
      obtain ⟨k', hk', -⟩ := hs.real_known d z hz
      rw [hy] at hk'
      cases hk'
      exact hs.view_known d _ _ hy

/-! ## Lookups of one key -/

/-- What a lookup of `k` returned runs the codec `k` holds, once its placeholder is resolved. -/
theorem Coherent.target_known {s : Registry} (hs : Coherent s) {k : Key} {x a : Entry}
    (hm : (k, x) ∈ s.log) (ha : s.target x = some a) : s.known k = some a := by
  rcases hs.log_known k x hm with ⟨hk, hx⟩ | ⟨d, rfl, y, hy⟩
  · -- a codec other than a placeholder runs itself
    cases x with
    | deferred d => cases hx
    | built c => cases ha; exact hk
    | user c => cases ha; exact hk
  · -- a placeholder runs what it was resolved to: the codec its job stored at `k`
    obtain ⟨k', hk', -⟩ := hs.real_known d a ha
    rw [hy] at hk'
    cases hk'
    exact hs.view_known d k _ hy

/-- All lookups of one key run one codec: under any interleaving, whatever two lookups of `k`
returned, a codec or a placeholder, they run the same codec once resolved. -/
theorem lookups_agree (as : List Action) {k : Key} {x y a b : Entry}
    (hx : (k, x) ∈ (run e init as).log) (hy : (k, y) ∈ (run e init as).log)
    (ha : (run e init as).target x = some a) (hb : (run e init as).target y = some b) : a = b := by
  have hs := coherent_run e coherent_init as
  have h := hs.target_known hx ha
  rw [hs.target_known hy hb] at h
  exact (Option.some.inj h).symm

/-- A program with `type T struct { A int32 }`: `0` is `T`, `1` is `int32`. -/
def registerProgram : Universe where
  info
    | 0 => ⟨.struct [⟨"A", 1, true, []⟩], "T", false, .none⟩
    | 1 => ⟨.scalar .int32, "int32", true, .none⟩
    | _ => TypeInfo.invalid
  zero
    | 0 => .struct [.int 0]
    | 1 => .int 0
    | _ => .ref true
  zero_eq t := by rcases t with _ | _ | t <;> rfl
  marshalXDR _ _ := .ok []
  unmarshalXDR _ v inp := .ok (v, inp)

/-- Goroutine `1` looks `T` up while goroutine `0` is building it, and gets the placeholder;
goroutine `0` then gets the codec it built. The placeholder runs that codec. -/
theorem lookups_agree_placeholder :
    let s := run ⟨registerProgram, .w64, false⟩ init [.call 0 (.getCodec ⟨0, []⟩), .step 0, .step 0,
      .call 1 (.getCodec ⟨0, []⟩), .step 1, .step 0, .step 0, .step 0, .step 0, .step 0, .step 0,
      .step 0, .step 0, .step 0]
    (⟨0, []⟩, .deferred 0) ∈ s.log ∧ (⟨0, []⟩, .built (.structCodec "T" [⟨0, "A", ⟨1, []⟩⟩])) ∈ s.log ∧
      s.target (.deferred 0) = some (.built (.structCodec "T" [⟨0, "A", ⟨1, []⟩⟩])) ∧
      s.target (.built (.structCodec "T" [⟨0, "A", ⟨1, []⟩⟩])) =
        some (.built (.structCodec "T" [⟨0, "A", ⟨1, []⟩⟩])) ∧
      Entry.built (.structCodec "T" [⟨0, "A", ⟨1, []⟩⟩]) = .built (.structCodec "T" [⟨0, "A", ⟨1, []⟩⟩]) := by
  intro s
  have hlog : s.log = [(⟨0, []⟩, .deferred 0), (⟨1, []⟩, .built (.intCodec 32)),
      (⟨0, []⟩, .built (.structCodec "T" [⟨0, "A", ⟨1, []⟩⟩]))] := rfl
  have hx : (⟨0, []⟩, .deferred 0) ∈ s.log := hlog ▸ .head _
  have hy : (⟨0, []⟩, .built (.structCodec "T" [⟨0, "A", ⟨1, []⟩⟩])) ∈ s.log :=
    hlog ▸ .tail _ (.tail _ (.head _))
  exact ⟨hx, hy, rfl, rfl, lookups_agree _ _ hx hy rfl rfl⟩

end Registry

end OncXdr
