import OncXdr.Registry.Coherence

/-!
# OncXdr.Registry.EncoderCache — the encoder's codec cache against the registry

An `encoder` keeps a direct-mapped cache of four `(type_, codec)` slots in front of its coder's
`getBaseCodec`. `EncodeValue` scans the slots for `v.Type()`; on a miss it asks the coder,
advances `codecCacheSlot` to `(codecCacheSlot + 1) & 3` and stores the answer there. Encoders
live in two `sync.Pool`s (`encoderPool` for `NewEncoder` and `Write`, `marshalEncoderPool` for
`Marshal`): `release` puts an encoder back with its coder and its cache, and `reset`, run on every
`Get`, clears the cache when the encoder is handed to another coder.

A `World` holds every coder's registry, every encoder the pools have made, and the
`EncodeValue` calls whose `getBaseCodec` is still running, on one goroutine of that coder's
registry while any other goroutine of any coder may step. The answer is what the goroutine's
outermost call logs when it ends (`exec_outermost`).

`World.Sound` is the invariant: every registry is `Coherent`, every occupied slot holds an entry
that a lookup of `(t, "")` on the encoder's current coder returned, and every running lookup's
outermost call is for `(t, "")`. Every action keeps it (`Sound.exec`), so in every run the cache
agrees with the registry: what a slot holds runs, once resolved, the codec stored at `(t, "")`,
the same codec as every lookup of `(t, "")` on that coder (`encoder_cache_agrees`).
-/

namespace OncXdr

namespace Registry

open Function

/-! ## One goroutine's outermost call -/

/-- What one step of the call `f` on top of goroutine `g`'s stack `f :: rest` does to that stack
and to the log. -/
inductive TopStep (s : Registry) (g : Nat) (f : Frame) (rest : List Frame) (s' : Registry) : Prop
  /-- The call returns `x` as the codec of its key. -/
  | ret (k : Key) (x : Entry) (hk : frameKey s f = some k) (hc : s'.calls g = rest)
      (hl : s'.log = s.log ++ [(k, x)])
  /-- The call ends and returns no codec. -/
  | pop (hc : s'.calls g = rest) (hl : s'.log = s.log)
  /-- The call goes on as `f'`, for the same key. -/
  | become (f' : Frame) (hc : s'.calls g = f' :: rest) (hk : frameKey s' f' = frameKey s f)
      (hl : s'.log = s.log)
  /-- The call makes the nested call `f'`. -/
  | push (f' : Frame) (hc : s'.calls g = f' :: f :: rest) (hl : s'.log = s.log)
  /-- A panic unwinds the goroutine. -/
  | abort (hc : s'.calls g = []) (hl : s'.log = s.log)

variable (e : Env)

theorem found_topStep {s : Registry} {g : Nat} {f : Frame} {rest : List Frame}
    (hg : s.calls g = f :: rest) {k : Key} (x : Entry) (hk : frameKey s f = some k) :
    TopStep s g f rest (found e s g k x) := by
  unfold found
  split
  · exact .ret k x hk (by simp [ret, hg]) rfl
  · exact .abort (by simp [abort]) rfl

/-- Every step of the top call is one of the `TopStep`s. -/
theorem topStep {s : Registry} {g : Nat} {f : Frame} {rest : List Frame}
    (hg : s.calls g = f :: rest) : TopStep s g f rest (stepFrame e s g f) := by
  cases f with
  | getCodec k =>
    simp only [stepFrame]
    split
    · exact found_topStep e hg _ rfl
    · exact .become (.getNew k) (by simp [become, hg]) rfl rfl
  | getBase t =>
    simp only [stepFrame]
    split
    · exact found_topStep e hg _ rfl
    · exact .become (.getNew ⟨t, []⟩) (by simp [become, hg]) rfl rfl
  | getNew k =>
    simp only [stepFrame]
    split
    · exact found_topStep e hg _ rfl
    · split
      · exact .abort (by simp [abort]) rfl
      · exact .become (.job s.fresh) (by simp [become, hg]) (by simp [frameKey, Job.key]) rfl
  | job d =>
    simp only [stepFrame]
    split
    · rename_i l _ _
      exact .push (.getCodec l) (by simp [push, hg]) rfl
    · exact .become (.job d) hg (by simp [frameKey, Job.key, *]) rfl
    · exact .become (.job d) hg (by simp [frameKey, Job.key, *]) rfl
    · exact .ret _ _ (by simp [frameKey, Job.key, *]) (by simp [ret, hg]) rfl
    · exact .pop (by simp [pop, hg]) rfl
  | register t c =>
    simp only [stepFrame]
    split
    · exact .abort (by simp [abort]) rfl
    · split
      · exact .abort (by simp [abort]) rfl
      · split
        · exact .pop (by simp [pop, hg]) rfl
        · split
          · exact .abort (by simp [abort]) rfl
          · split
            · exact .pop (by simp [pop, hg]) rfl
            · exact .abort (by simp [abort]) rfl

/-- A step of one goroutine leaves every other goroutine's stack as it was. -/
theorem stepFrame_calls_ne (s : Registry) {g h : Nat} (hh : h ≠ g) (f : Frame) :
    (stepFrame e s g f).calls h = s.calls h := by
  cases f <;> simp only [stepFrame, found] <;> repeat' split
  all_goals simp [ret, pop, abort, become, push, update_noteq hh]

/-- Lookups are only ever added to the log. -/
theorem Effect.log_mem {n : Bool} {s s' : Registry} (h : Effect n s s') {m : Key × Entry}
    (hm : m ∈ s.log) : m ∈ s'.log := by
  cases h <;> first | exact hm | exact List.mem_append_left _ hm

/-- A call keeps the key it returns for along every effect: a job keeps its key, and a new job
takes a number no job had. -/
theorem Coherent.frameKey_effect {s s' : Registry} (hs : Coherent s) {n : Bool} (h : Effect n s s')
    {f : Frame} {k : Key} (hk : frameKey s f = some k) : frameKey s' f = some k := by
  cases f with
  | job d =>
    simp only [frameKey] at hk ⊢
    have upd : ∀ {d' j₀ j₁}, s.jobs d' = some j₀ → Job.key j₁ = j₀.key →
        ((update s.jobs d' (some j₁)) d).map Job.key = some k := by
      intro d' j₀ j₁ h₀ h₁
      by_cases hd : d = d'
      · subst hd
        rw [h₀] at hk
        simpa [h₁] using hk
      · rwa [update_noteq hd]
    cases h with
    | install st ps k' j =>
      have hfresh : s.jobs s.fresh = none := by
        simpa [view, viewOf] using hs.fresh_free s.fresh le_rfl
      have hd : d ≠ s.fresh := by rintro rfl; simp [hfresh] at hk
      exact (congrArg (Option.map Job.key) (update_noteq hd _ _)).trans hk
    | advance st d' k' c l ls h' => exact upd h' rfl
    | store d' k' c h' => exact upd h' rfl
    | storeBase d' k' c h' => exact upd h' rfl
    | resolve st d' k' c h' => exact upd h' rfl
    | _ => exact hk
  | _ => cases h <;> exact hk

section Outermost

variable {s s' : Registry} {g : Nat} {b : Frame} {k : Key}

/-- What a step of `g` does to `g`'s outermost call, which is for `k`: the outermost call is for
`k` after it, or the step ended that call, logging its codec for `k` or nothing. -/
theorem TopStep.outermost {f : Frame} {rest : List Frame} (ht : TopStep s g f rest s')
    (hb : (f :: rest).getLast? = some b) (hk : frameKey s b = some k)
    (hkey : ∀ {f k}, frameKey s f = some k → frameKey s' f = some k) :
    (∃ b', (s'.calls g).getLast? = some b' ∧ frameKey s' b' = some k) ∨
      (s'.calls g = [] ∧ (s'.log = s.log ∨ ∃ x, s'.log = s.log ++ [(k, x)])) := by
  rcases rest with _ | ⟨r, rs⟩
  · -- `f` is the outermost call
    cases Option.some.inj hb
    cases ht with
    | ret k' x hk' hc hl =>
      exact .inr ⟨hc, .inr ⟨x, by rw [hl, Option.some.inj (hk'.symm.trans hk)]⟩⟩
    | pop hc hl => exact .inr ⟨hc, .inl hl⟩
    | become f' hc hk' => exact .inl ⟨f', by simp [hc], hk'.trans hk⟩
    | push f' hc => exact .inl ⟨f, by simp [hc], hkey hk⟩
    | abort hc hl => exact .inr ⟨hc, .inl hl⟩
  · -- the outermost call is below `f`
    rw [List.getLast?_cons_cons] at hb
    cases ht with
    | ret k' x hk' hc => exact .inl ⟨b, by rw [hc, hb], hkey hk⟩
    | pop hc => exact .inl ⟨b, by rw [hc, hb], hkey hk⟩
    | become f' hc => exact .inl ⟨b, by rw [hc, List.getLast?_cons_cons, hb], hkey hk⟩
    | push f' hc =>
      exact .inl ⟨b, by rw [hc, List.getLast?_cons_cons, List.getLast?_cons_cons, hb], hkey hk⟩
    | abort hc hl => exact .inr ⟨hc, .inl hl⟩

/-- Any scheduling choice, against a goroutine `g` whose outermost call is for `k`: `g` still
has an outermost call for `k`, or the choice was `g`'s step that ended it, logging its codec for
`k` or nothing. -/
theorem Coherent.exec_outermost (hs : Coherent s) (hb : (s.calls g).getLast? = some b)
    (hk : frameKey s b = some k) (a : Action) :
    (∃ b', ((exec e s a).calls g).getLast? = some b' ∧ frameKey (exec e s a) b' = some k) ∨
      ((exec e s a).calls g = [] ∧
        ((exec e s a).log = s.log ∨ ∃ x, (exec e s a).log = s.log ++ [(k, x)])) := by
  have hkey : ∀ {f k}, frameKey s f = some k → frameKey (exec e s a) f = some k :=
    hs.frameKey_effect (exec_effect e s a)
  have busy : s.calls g ≠ [] := by rintro h; simp [h] at hb
  cases a with
  | call h op =>
    refine .inl ⟨b, ?_, hkey hk⟩
    simp only [exec]
    split
    · rename_i hh
      have : g ≠ h := by rintro rfl; simp [busy] at hh
      simpa [push, update_noteq this] using hb
    · exact hb
  | step h =>
    revert hkey
    simp only [exec]
    split
    · exact fun hkey => .inl ⟨b, hb, hkey hk⟩
    · rename_i f rest hf
      intro hkey
      by_cases hgh : g = h
      · subst hgh
        exact (topStep e hf).outermost (hf ▸ hb) hk hkey
      · exact .inl ⟨b, by rw [stepFrame_calls_ne e s hgh]; exact hb, hkey hk⟩

end Outermost

end Registry

/-! ## Encoders -/

/-- The two pools of encoders: `encoderPool` (`*encoder`) and `marshalEncoderPool`
(`*marshalEncoder`). -/
inductive Pool
  | encoder
  | marshal
  deriving DecidableEq, Repr

/-- The fields of an `encoder` the cache reads (a `marshalEncoder` embeds one): the coder `cr`
by identity, nil in a new encoder; `codecCache`, an empty slot having a nil `type_`; and
`codecCacheSlot`, the last slot filled. -/
structure Encoder where
  cr : Option Nat
  codecCache : Fin 4 → Option (TypeId × Entry)
  codecCacheSlot : Fin 4

namespace Encoder

/-- What both pools' `New` make: `codecCacheSlot: 3`, the other fields zero. -/
def new : Encoder := ⟨none, fun _ => none, 3⟩

/-- `encoder.reset(cr, w)` as the cache sees it: every slot is cleared when the coder changes,
then `e.cr = cr`. -/
def reset (e : Encoder) (cr : Nat) : Encoder :=
  { e with codecCache := if e.cr ≠ some cr then fun _ => none else e.codecCache, cr := some cr }

/-- `marshalEncoder.reset(cr)`: the lines of `encoder.reset` that do not touch the writer. -/
def marshalReset (e : Encoder) (cr : Nat) : Encoder := e.reset cr

/-- The scan of `EncodeValue`: the codec of the first slot whose `type_` is `t`. -/
def cached (e : Encoder) (t : TypeId) : Option Entry :=
  ([0, 1, 2, 3] : List (Fin 4)).findSome? fun i =>
    (e.codecCache i).bind fun p => if p.1 = t then some p.2 else none

/-- The miss path of `EncodeValue` once `getBaseCodec(t)` returned `c`: `codecCacheSlot` moves to
`(codecCacheSlot + 1) & 3`, and the slot there takes `(t, c)`. -/
def fill (e : Encoder) (t : TypeId) (c : Entry) : Encoder :=
  { e with
    codecCacheSlot := e.codecCacheSlot + 1
    codecCache := Function.update e.codecCache (e.codecCacheSlot + 1) (some (t, c)) }

/-- The slot arithmetic: on `0 … 3`, `+ 1` in `Fin 4` is `(slot + 1) & 3`. -/
theorem slot_succ (slot : Fin 4) : ((slot + 1 : Fin 4) : Nat) = (slot + 1) &&& 3 := by
  revert slot; decide

/-- A scan hit is a slot's codec. -/
theorem cached_slot {e : Encoder} {t : TypeId} {x : Entry} (h : e.cached t = some x) :
    ∃ i, e.codecCache i = some (t, x) := by
  obtain ⟨i, -, hi⟩ := List.exists_of_findSome?_eq_some h
  obtain ⟨⟨t', x'⟩, hp, hx⟩ := Option.bind_eq_some.mp hi
  by_cases ht : t' = t
  · subst ht
    simp only [if_true, Option.some.injEq] at hx
    exact ⟨i, hx ▸ hp⟩
  · simp [ht] at hx

/-- After `reset(cr)` a slot holds what it held under the same coder, or nothing. -/
theorem reset_slot {e : Encoder} {cr : Nat} {i : Fin 4} {p : TypeId × Entry}
    (h : (e.reset cr).codecCache i = some p) : e.cr = some cr ∧ e.codecCache i = some p := by
  simp only [reset] at h
  split_ifs at h with hc
  · exact ⟨not_not.mp hc, h⟩

/-- After `fill t c` a slot holds `(t, c)` or what it held. -/
theorem fill_slot {e : Encoder} {t : TypeId} {c : Entry} {i : Fin 4} {p : TypeId × Entry}
    (h : (e.fill t c).codecCache i = some p) : p = (t, c) ∨ e.codecCache i = some p := by
  simp only [fill] at h
  by_cases hi : i = e.codecCacheSlot + 1
  · subst hi
    rw [Function.update_same] at h
    exact .inl (Option.some.inj h).symm
  · rw [Function.update_noteq hi] at h
    exact .inr h

end Encoder

/-- The encoders by identity: the pool whose `New` made each, and a number. -/
abbrev EncoderId := Pool × Nat

/-- `Get` and `reset(cr)`: `newEncoder` on `encoderPool`, `Marshal` on `marshalEncoderPool`. -/
def Pool.reset : Pool → Encoder → Nat → Encoder
  | .encoder => Encoder.reset
  | .marshal => Encoder.marshalReset

theorem Pool.reset_eq (p : Pool) : p.reset = Encoder.reset := by cases p <;> rfl

/-- An encoder object: its fields, whether it is in its pool, and the `EncodeValue` call on it
whose `getBaseCodec(t)` is running: the goroutine of the coder's registry that runs it, and `t`. -/
structure EncoderObj where
  enc : Encoder
  pooled : Bool
  calling : Option (Nat × TypeId)

/-- How the call that goroutine `g` was running ended in the step from `s` to `s'`: `none` while
it goes on; once `g` is idle, the codec the step logged, or nothing for a panic. -/
def callEnd (s s' : Registry) (g : Nat) : Option (Option Entry) :=
  if (s'.calls g).isEmpty then some ((s'.log.drop s.log.length).head?.map Prod.snd) else none

/-- The rest of `EncodeValue` once `getBaseCodec(t)` ended: a returned codec fills a slot; a
panic leaves the cache. -/
def Encoder.complete (e : Encoder) (t : TypeId) : Option Entry → Encoder
  | some c => e.fill t c
  | none => e

/-- An encoder object after a step of coder `c`'s registry from `s` to `s'`: an `EncodeValue`
waiting on that coder finishes when its goroutine's call ends. -/
def EncoderObj.afterStep (o : EncoderObj) (c : Nat) (s s' : Registry) : EncoderObj :=
  match o.calling with
  | some (g, t) =>
    if o.enc.cr = some c then
      match callEnd s s' g with
      | some r => { o with enc := o.enc.complete t r, calling := none }
      | none => o
    else o
  | none => o

/-- Every coder's registry and every encoder the pools have made. -/
structure World where
  /-- The coders by identity; one no call has touched is `NewCoder()`. -/
  coders : Nat → Registry
  objects : EncoderId → Option EncoderObj

/-- What can happen next. -/
inductive WorldAction
  /-- A scheduling choice of coder `c`'s registry: any goroutine's lookup, build step or
  registration. -/
  | registry (c : Nat) (a : Action)
  /-- `Get` from the pool of `i`, returning the pooled encoder `i` or having `New` make it, then
  `reset(cr)`. -/
  | get (i : EncoderId) (cr : Nat)
  /-- `EncodeValue` on the encoder `i` of a value of type `t`, on goroutine `g`. -/
  | encode (i : EncoderId) (g : Nat) (t : TypeId)
  /-- `release()`: `Put` back into its pool. -/
  | release (i : EncoderId)

namespace World

open Function

/-- No coder used, no encoder made. -/
def init : World := ⟨fun _ => .init, fun _ => none⟩

variable (e : Env)

/-- One action. A cache hit runs the cached codec and changes nothing; a miss starts
`getBaseCodec(t)` on `g`, which must be idle in that coder; a `Get` of an encoder that is not in
its pool, and the `EncodeValue` or `release` of one that is, do not happen. -/
def exec (W : World) : WorldAction → World
  | .registry c a =>
    let s' := Registry.exec e (W.coders c) a
    ⟨update W.coders c s', fun i => (W.objects i).map (·.afterStep c (W.coders c) s')⟩
  | .get i cr =>
    match W.objects i with
    | none => { W with objects := update W.objects i (some ⟨i.1.reset .new cr, false, none⟩) }
    | some o =>
      if o.pooled then
        { W with objects := update W.objects i (some ⟨i.1.reset o.enc cr, false, none⟩) }
      else W
  | .encode i g t =>
    match W.objects i with
    | some ⟨enc, false, none⟩ =>
      match enc.cr, enc.cached t with
      | some c, none =>
        if W.coders c |>.calls g |>.isEmpty then
          ⟨update W.coders c (Registry.exec e (W.coders c) (.call g (.getBase t))),
            update W.objects i (some ⟨enc, false, some (g, t)⟩)⟩
        else W
      | _, _ => W
    | _ => W
  | .release i =>
    match W.objects i with
    | some ⟨enc, false, none⟩ =>
      { W with objects := update W.objects i (some ⟨enc, true, none⟩) }
    | _ => W

/-- A run: the actions in order. -/
def run (W : World) (ws : List WorldAction) : World := ws.foldl (exec e) W

/-! ## The invariant -/

/-- What the invariant asks of one encoder: every occupied slot holds an entry that a lookup of
`(t, "")` on the encoder's coder returned; and while its `getBaseCodec(t)` runs, the encoder is
out of its pool and the outermost call of the goroutine running it is for `(t, "")`. -/
structure EncoderOk (coders : Nat → Registry) (o : EncoderObj) : Prop where
  slot_logged : ∀ j t x, o.enc.codecCache j = some (t, x) →
    ∃ c, o.enc.cr = some c ∧ (⟨t, []⟩, x) ∈ (coders c).log
  calling_outermost : ∀ g t, o.calling = some (g, t) →
    o.pooled = false ∧ ∃ c b, o.enc.cr = some c ∧ ((coders c).calls g).getLast? = some b ∧
      (coders c).frameKey b = some ⟨t, []⟩

/-- The invariant of every reachable world: every coder's registry is coherent, and every encoder
is `EncoderOk`. -/
structure Sound (W : World) : Prop where
  coherent : ∀ c, (W.coders c).Coherent
  objects_ok : ∀ i o, W.objects i = some o → EncoderOk W.coders o

theorem sound_init : init.Sound :=
  ⟨fun _ => Registry.coherent_init, fun _ _ h => (nomatch h)⟩

/-- How a step of a coder's registry ends the lookup that goroutine `g` runs, whose outermost
call is for `k`: it goes on, still for `k`; or it ended in a panic; or it returned an entry the
log now holds for `k`. -/
theorem callEnd_exec {s : Registry} (hs : s.Coherent) {g : Nat} {b : Frame} {k : Key}
    (hb : (s.calls g).getLast? = some b) (hk : s.frameKey b = some k) (a : Action) :
    (callEnd s (Registry.exec e s a) g = none ∧
        ∃ b', ((Registry.exec e s a).calls g).getLast? = some b' ∧
          (Registry.exec e s a).frameKey b' = some k) ∨
      callEnd s (Registry.exec e s a) g = some none ∨
      ∃ x, callEnd s (Registry.exec e s a) g = some (some x) ∧
        (k, x) ∈ (Registry.exec e s a).log := by
  rcases hs.exec_outermost e hb hk a with ⟨b', hb', hk'⟩ | ⟨hc, hl | ⟨x, hl⟩⟩
  · have : ((Registry.exec e s a).calls g).isEmpty = false := by
      cases h : (Registry.exec e s a).calls g with
      | nil => simp [h] at hb'
      | cons => rfl
    exact .inl ⟨by simp [callEnd, this], b', hb', hk'⟩
  · exact .inr (.inl (by simp [callEnd, hc, hl]))
  · exact .inr (.inr ⟨x, by simp [callEnd, hc, hl], by simp [hl]⟩)

section Steps

variable {W : World} (hW : W.Sound)
include hW

/-- One encoder across a step of coder `c`'s registry: it is `EncoderOk` after it. -/
theorem Sound.afterStep (c : Nat) (a : Action) {i : EncoderId} {o : EncoderObj}
    (ho : W.objects i = some o) :
    EncoderOk (W.exec e (.registry c a)).coders
      (o.afterStep c (W.coders c) (Registry.exec e (W.coders c) a)) := by
  set W' := W.exec e (.registry c a)
  have hok := hW.objects_ok i o ho
  have hcoder : ∀ c', W'.coders c' = if c' = c then Registry.exec e (W.coders c) a else W.coders c' :=
    fun c' => by by_cases h : c' = c <;> simp [W', exec, h]
  have grow : ∀ c' m, m ∈ (W.coders c').log → m ∈ (W'.coders c').log := by
    intro c' m hm
    rw [hcoder]
    split_ifs with h
    · subst h; exact (Registry.exec_effect e (W.coders c') a).log_mem hm
    · exact hm
  have slots : ∀ j t x, o.enc.codecCache j = some (t, x) →
      ∃ c', o.enc.cr = some c' ∧ (⟨t, []⟩, x) ∈ (W'.coders c').log := fun j t x hj =>
    let ⟨c', hc, hm⟩ := hok.slot_logged j t x hj
    ⟨c', hc, grow c' _ hm⟩
  cases hcall : o.calling with
  | none =>
    rw [show o.afterStep c (W.coders c) (Registry.exec e (W.coders c) a) = o by
      simp [EncoderObj.afterStep, hcall]]
    exact ⟨slots, fun _ _ h => by simp [hcall] at h⟩
  | some gt =>
    obtain ⟨g, t⟩ := gt
    obtain ⟨hp, c₀, b, hc₀, hb, hk⟩ := hok.calling_outermost g t hcall
    -- `o` unchanged, its lookup still running for `(t, "")`
    have running : (∃ b', ((W'.coders c₀).calls g).getLast? = some b' ∧
        (W'.coders c₀).frameKey b' = some ⟨t, []⟩) → EncoderOk W'.coders o :=
      fun ⟨b', hb', hk'⟩ =>
        ⟨slots, fun g' t' h' => by rw [hcall] at h'; cases h'; exact ⟨hp, c₀, b', hc₀, hb', hk'⟩⟩
    by_cases hc : c₀ = c
    · subst hc
      have hW' : W'.coders c₀ = Registry.exec e (W.coders c₀) a := by simp [hcoder]
      rcases callEnd_exec e (hW.coherent c₀) hb hk a with ⟨hend, hrun⟩ | hend | ⟨x, hend, hx⟩
      · rw [show o.afterStep c₀ (W.coders c₀) (Registry.exec e (W.coders c₀) a) = o by
          simp [EncoderObj.afterStep, hcall, hc₀, hend]]
        exact running (hW' ▸ hrun)
      · -- a panic: the cache is as it was
        rw [show o.afterStep c₀ (W.coders c₀) (Registry.exec e (W.coders c₀) a) =
            { o with calling := none } by
          simp [EncoderObj.afterStep, hcall, hc₀, hend, Encoder.complete]]
        exact ⟨slots, fun _ _ h => (nomatch h)⟩
      · -- the lookup returned `x`, which goes in a slot
        rw [show o.afterStep c₀ (W.coders c₀) (Registry.exec e (W.coders c₀) a) =
            { o with enc := o.enc.fill t x, calling := none } by
          simp [EncoderObj.afterStep, hcall, hc₀, hend, Encoder.complete]]
        refine ⟨fun j t' x' hj => ?_, fun _ _ h => (nomatch h)⟩
        rcases Encoder.fill_slot hj with h | h
        · cases h
          exact ⟨c₀, hc₀, hW' ▸ hx⟩
        · exact slots j t' x' h
    · rw [show o.afterStep c (W.coders c) (Registry.exec e (W.coders c) a) = o by
        simp [EncoderObj.afterStep, hcall, hc₀, hc]]
      exact running ⟨b, by simpa [hcoder, hc] using hb, by simpa [hcoder, hc] using hk⟩

/-- A step of coder `c`'s registry keeps the invariant. -/
theorem Sound.registry (c : Nat) (a : Action) : (W.exec e (.registry c a)).Sound where
  coherent c' := by
    by_cases h : c' = c
    · subst h
      simpa [exec] using (hW.coherent c').effect (Registry.exec_effect e _ a)
    · simpa [exec, update_noteq h] using hW.coherent c'
  objects_ok i o' h := by
    obtain ⟨o, ho, rfl⟩ := Option.map_eq_some'.mp h
    exact hW.afterStep e c a ho

/-- Replacing one encoder by one that is `EncoderOk` keeps the invariant. -/
theorem Sound.setObject {i : EncoderId} {o : EncoderObj} (ho : EncoderOk W.coders o) :
    Sound { W with objects := update W.objects i (some o) } where
  coherent := hW.coherent
  objects_ok i' o' h := by
    replace h : update W.objects i (some o) i' = some o' := h
    by_cases hi : i' = i
    · subst hi
      rw [update_same] at h
      cases h
      exact ho
    · rw [update_noteq hi] at h
      exact hW.objects_ok i' o' h

/-- `Get` and `reset(cr)` keep the invariant: `reset` keeps the slots only for the same coder. -/
theorem Sound.get (i : EncoderId) (cr : Nat) : (W.exec e (.get i cr)).Sound := by
  have reset : ∀ enc : Encoder, (∀ j t x, enc.codecCache j = some (t, x) →
      ∃ c, enc.cr = some c ∧ (⟨t, []⟩, x) ∈ (W.coders c).log) →
      EncoderOk W.coders ⟨i.1.reset enc cr, false, none⟩ := fun enc hslots =>
    ⟨fun j t x hj => by
      rw [Pool.reset_eq] at hj ⊢
      obtain ⟨hcr, hj⟩ := Encoder.reset_slot hj
      obtain ⟨c, hc, hm⟩ := hslots j t x hj
      rw [hcr] at hc
      cases hc
      exact ⟨cr, rfl, hm⟩, fun _ _ h => (nomatch h)⟩
  simp only [exec]
  split
  · exact hW.setObject (reset _ fun _ _ _ h => (nomatch h))
  · rename_i o ho
    split_ifs
    · exact hW.setObject (reset _ (hW.objects_ok i o ho).slot_logged)
    · exact hW

/-- `EncodeValue` keeps the invariant: a hit changes nothing, and a miss starts `getBaseCodec(t)`
on an idle goroutine, whose outermost call is then that lookup. -/
theorem Sound.encode (i : EncoderId) (g : Nat) (t : TypeId) : (W.exec e (.encode i g t)).Sound := by
  simp only [exec]
  split
  · rename_i enc hi
    split
    · rename_i c hcr _
      split_ifs with hidle
      · set s := W.coders c
        have hg : s.calls g = [] := List.isEmpty_iff.mp hidle
        -- only `g`'s stack changes
        have hcalls : ∀ g', g' ≠ g →
            (Registry.exec e s (.call g (.getBase t))).calls g' = s.calls g' := fun g' hne => by
          simp [Registry.exec, hidle, Registry.push, update_noteq hne]
        have hkey := fun {f k} => (hW.coherent c).frameKey_effect
          (Registry.exec_effect e s (.call g (.getBase t))) (f := f) (k := k)
        set W' : World := ⟨update W.coders c (Registry.exec e s (.call g (.getBase t))),
          update W.objects i (some ⟨enc, false, some (g, t)⟩)⟩
        have hcoder : ∀ c', c' ≠ c → W'.coders c' = W.coders c' := fun c' h => update_noteq h _ _
        have grow : ∀ c' m, m ∈ (W.coders c').log → m ∈ (W'.coders c').log := by
          intro c' m hm
          by_cases h : c' = c
          · subst h
            simpa [W'] using (Registry.exec_effect e s (.call g (.getBase t))).log_mem hm
          · rwa [hcoder c' h]
        -- every encoder is `EncoderOk` in the new world
        have keep : ∀ o, EncoderOk W.coders o → EncoderOk W'.coders o := fun o ho => by
          refine ⟨fun j t' x hj => ?_, fun g' t' h' => ?_⟩
          · obtain ⟨c', hc', hm⟩ := ho.slot_logged j t' x hj
            exact ⟨c', hc', grow c' _ hm⟩
          · obtain ⟨hp, c₀, b, hc₀, hb, hk⟩ := ho.calling_outermost g' t' h'
            refine ⟨hp, c₀, b, hc₀, ?_⟩
            by_cases h : c₀ = c
            · subst h
              have hne : g' ≠ g := by
                rintro rfl
                have : (W.coders c₀).calls g' = [] := hg
                simp [this] at hb
              simp only [W', update_same]
              exact ⟨by rw [hcalls g' hne]; exact hb, hkey hk⟩
            · rw [hcoder c₀ h]
              exact ⟨hb, hk⟩
        refine ⟨fun c' => ?_, fun i' o' h => ?_⟩
        · by_cases h : c' = c
          · subst h
            simpa [W'] using (hW.coherent c').effect (Registry.exec_effect e s (.call g (.getBase t)))
          · rw [hcoder c' h]
            exact hW.coherent c'
        · by_cases hi' : i' = i
          · subst hi'
            simp only [W', update_same, Option.some.injEq] at h
            subst h
            have hok := keep _ (hW.objects_ok i' _ hi)
            refine ⟨hok.slot_logged, fun g' t' h' => ?_⟩
            cases h'
            refine ⟨rfl, c, .getBase t, hcr, ?_, rfl⟩
            simp [W', Registry.exec, hidle, Registry.push, hg, Op.frame]
          · simp only [W', update_noteq hi'] at h
            exact keep o' (hW.objects_ok i' o' h)
      · exact hW
    · exact hW
  · exact hW

/-- `release` keeps the invariant: the encoder goes back to its pool with its coder and cache. -/
theorem Sound.release (i : EncoderId) : (W.exec e (.release i)).Sound := by
  simp only [exec]
  split
  · rename_i enc hi
    exact hW.setObject ⟨(hW.objects_ok i _ hi).slot_logged, fun _ _ h => (nomatch h)⟩
  · exact hW

/-- Every action keeps the invariant. -/
theorem Sound.exec (w : WorldAction) : (W.exec e w).Sound := by
  cases w with
  | registry c a => exact hW.registry e c a
  | get i cr => exact hW.get e i cr
  | encode i g t => exact hW.encode e i g t
  | release i => exact hW.release e i

end Steps

/-- Every run keeps the invariant. -/
theorem sound_run {W : World} (hW : W.Sound) (ws : List WorldAction) : (W.run e ws).Sound := by
  induction ws generalizing W with
  | nil => exact hW
  | cons w ws ih => exact ih (hW.exec e w)

/-- The encoders' caches agree with the registries, in every run from no coder and no encoder:
any interleaving of `Get` and `reset`, `EncodeValue` and `release` on both pools' encoders, across
any coders, with any goroutines of those coders looking codecs up, building them and registering
their own. A slot of an encoder holding `(t, x)`, and so what `EncodeValue` finds for `t`, is an
entry that a lookup of `(t, "")` on the encoder's current coder returned. Once `x` is resolved
(at once, unless it is a placeholder) it runs the codec stored at `(t, "")`, which every later
`getBaseCodec(t)` returns, and the same codec as every lookup of `(t, "")` on that coder. -/
theorem encoder_cache_agrees (ws : List WorldAction) :
    let W := init.run e ws
    ∀ i o t x, W.objects i = some o → ((∃ j, o.enc.codecCache j = some (t, x)) ∨ o.enc.cached t = some x) →
      ∃ c, o.enc.cr = some c ∧ (⟨t, []⟩, x) ∈ (W.coders c).log ∧
        (∀ a, (W.coders c).target x = some a → (W.coders c).known ⟨t, []⟩ = some a) ∧
        ∀ y a b, (⟨t, []⟩, y) ∈ (W.coders c).log → (W.coders c).target x = some a →
          (W.coders c).target y = some b → a = b := by
  intro W i o t x ho hx
  have hW : W.Sound := sound_run e sound_init ws
  obtain ⟨j, hj⟩ : ∃ j, o.enc.codecCache j = some (t, x) := hx.elim id Encoder.cached_slot
  obtain ⟨c, hc, hm⟩ := (hW.objects_ok i o ho).slot_logged j t x hj
  have hs := hW.coherent c
  refine ⟨c, hc, hm, fun a ha => hs.target_known hm ha, fun y a b hy ha hb => ?_⟩
  -- both run what `(t, "")` holds
  have h := hs.target_known hm ha
  rw [hs.target_known hy hb] at h
  exact (Option.some.inj h).symm

/-- `Marshal` of a `T` (`registerProgram`'s type `0`) on coder `0`: the new `marshalEncoder`
misses, goroutine `0` builds `T`'s codec, and the codec lands in slot `0`. -/
theorem marshal_caches_codec :
    let W := init.run ⟨Registry.registerProgram, .w64, false⟩
      ([.get (.marshal, 0) 0, .encode (.marshal, 0) 0 0] ++ List.replicate 12 (.registry 0 (.step 0)))
    ∃ o, W.objects (.marshal, 0) = some o ∧
      ((∃ j, o.enc.codecCache j = some (0, .built (.structCodec "T" [⟨0, "A", ⟨1, []⟩⟩]))) ∨
        o.enc.cached 0 = some (.built (.structCodec "T" [⟨0, "A", ⟨1, []⟩⟩]))) ∧
      ∃ c, o.enc.cr = some c ∧ (⟨0, []⟩, .built (.structCodec "T" [⟨0, "A", ⟨1, []⟩⟩])) ∈ (W.coders c).log ∧
        (∀ a, (W.coders c).target (.built (.structCodec "T" [⟨0, "A", ⟨1, []⟩⟩])) = some a →
          (W.coders c).known ⟨0, []⟩ = some a) ∧
        ∀ y a b, (⟨0, []⟩, y) ∈ (W.coders c).log →
          (W.coders c).target (.built (.structCodec "T" [⟨0, "A", ⟨1, []⟩⟩])) = some a →
          (W.coders c).target y = some b → a = b :=
  ⟨_, rfl, .inr rfl, encoder_cache_agrees _ _ (.marshal, 0) _ 0 _ rfl (.inr rfl)⟩

/-- Handed to coder `1`, the same pooled encoder starts with an empty cache; back on coder `0`, it
keeps `T`'s codec. -/
example :
    let ws : List WorldAction := [.get (.marshal, 0) 0, .encode (.marshal, 0) 0 0] ++
      List.replicate 12 (.registry 0 (.step 0)) ++ [.release (.marshal, 0)]
    ((init.run ⟨Registry.registerProgram, .w64, false⟩ (ws ++ [.get (.marshal, 0) 1])).objects
        (.marshal, 0)).map (·.enc.cached 0) = some none ∧
      ((init.run ⟨Registry.registerProgram, .w64, false⟩ (ws ++ [.get (.marshal, 0) 0])).objects
        (.marshal, 0)).map (·.enc.cached 0) =
        some (some (.built (.structCodec "T" [⟨0, "A", ⟨1, []⟩⟩]))) :=
  ⟨rfl, rfl⟩

end World

end OncXdr
