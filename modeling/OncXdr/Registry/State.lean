import OncXdr.Codec.Env
import Mathlib.Logic.Function.Basic

/-!
# OncXdr.Registry.State — the `Coder` registry as goroutines share it

A `Coder` holds two `sync.Map`s: `knownCodecs`, from `xType{t, tag}` to codec, and
`knownBaseCodecs`, from `t` to the codec of `(t, "")`. Any number of goroutines look codecs up
(`getCodec`, `getBaseCodec`), build the missing ones (`getNewCodec`) and register their own
(`RegisterCodecReflect`). Each `Load`, `LoadOrStore`, `Store` and `dc.resolve` is one atomic
step; between two steps of one goroutine any other goroutine may run.

A goroutine is a stack of calls in progress. `getNewCodec` that wins its `LoadOrStore` has
installed a placeholder (a `deferredCodec`, here numbered by allocation) and runs `buildCodec`,
whose `getCodec` calls for the child keys are pushed one at a time; then it stores the codec,
stores it as base codec when the tag is empty, and resolves the placeholder. A panic unwinds
the goroutine's whole stack.

Three records are bookkeeping of the model, read by no step: `jobs` (for each placeholder, the
`getNewCodec` call that made it and how far it got), `log` (what every lookup returned) and
`panics`.
-/

namespace OncXdr

/-- What `knownCodecs` and `knownBaseCodecs` hold. -/
inductive Entry
  /-- `toXCodec(cr.buildCodec(t, tag))`. -/
  | built (c : Codec)
  /-- A `*deferredCodec`, by identity. -/
  | deferred (d : Nat)
  /-- A codec the program passed to `RegisterCodecReflect`, by identity. -/
  | user (c : Nat)

namespace Entry

/-- Whether `x.(xCodec)` succeeds. In the default build `xCodec` is `codecUnsafe`, whose
unexported methods no codec from outside the package has; with `nounsafe` it is `Codec`. -/
def isXCodec (reflectOnly : Bool) : Entry → Bool
  | .user _ => reflectOnly
  | _ => true

/-- `toOriginalCodec(x) == c` for the registered codec `c`. -/
def isUserCodec (c : Nat) : Entry → Bool
  | .user c' => c' == c
  | _ => false

/-- Whether the entry is a placeholder. -/
def isDeferred : Entry → Bool
  | .deferred _ => true
  | _ => false

end Entry

/-- How far a `getNewCodec` call that built has got. -/
inductive Stage
  /-- In `buildCodec`, with the `getCodec` calls still to make. -/
  | building (todo : List Key)
  /-- After `knownCodecs.Store(xt, cc)`. -/
  | storedKnown
  /-- After `knownBaseCodecs.Store(t, cc)` (a no-op for a non-empty tag). -/
  | storedBase
  /-- After `dc.resolve(cc)`. -/
  | resolved

/-- The `getNewCodec` call that installed a placeholder: its key, and what `buildCodec` made
of it (with how far the call has got) or the panic it raised. -/
inductive Job
  | built (k : Key) (c : Codec) (stage : Stage)
  | panicked (k : Key) (msg : String)

/-- The key a job builds. -/
def Job.key : Job → Key
  | .built k .. | .panicked k _ => k

/-- A call in progress on a goroutine's stack. -/
inductive Frame
  /-- `getCodec(t, tag)`, before its `Load`. -/
  | getCodec (k : Key)
  /-- `getBaseCodec(t)`, before its `Load`. -/
  | getBase (t : TypeId)
  /-- `getNewCodec(xt, tag)`, before its `LoadOrStore`. -/
  | getNew (k : Key)
  /-- `getNewCodec` after winning, running the job of placeholder `d`. -/
  | job (d : Nat)
  /-- `RegisterCodecReflect(t, c)`. -/
  | register (t : TypeId) (c : Nat)

/-- The calls a goroutine can make on the registry. -/
inductive Op
  | getCodec (k : Key)
  | getBase (t : TypeId)
  | register (t : TypeId) (c : Nat)

/-- The call an operation starts. -/
def Op.frame : Op → Frame
  | .getCodec k => .getCodec k
  | .getBase t => .getBase t
  | .register t c => .register t c

/-- A scheduling choice: an idle goroutine starts a call, or a goroutine takes its next atomic
step. -/
inductive Action
  | call (g : Nat) (op : Op)
  | step (g : Nat)

/-- The panics a registry call can raise. -/
inductive RegistryPanic
  /-- A panic raised by `buildCodec` with this message. -/
  | build (msg : String)
  /-- `c.(xCodec)` failing: "interface conversion: … is not coder.codecUnsafe: missing method
  decodeUnsafe". -/
  | notXCodec
  /-- "Attempt to register codec for type %s which is of a prohibited kind" -/
  | prohibitedKind (t : TypeId)
  /-- "Attempt to register codec for primitive %s is prohibited" -/
  | primitive (t : TypeId)
  /-- "Attempt to register codec '%s' for type '%s' but '%s' is already registered" -/
  | alreadyRegistered (t : TypeId)

/-- The registry, the placeholders and the goroutines. -/
structure Registry where
  known : Key → Option Entry
  base : TypeId → Option Entry
  /-- `dc.real` of each placeholder. -/
  real : Nat → Option Entry
  jobs : Nat → Option Job
  /-- The number of the next placeholder. -/
  fresh : Nat
  /-- Each goroutine's calls in progress, innermost first. -/
  calls : Nat → List Frame
  log : List (Key × Entry)
  /-- The panics raised so far, with the goroutine that raised each. -/
  panics : List (Nat × RegistryPanic)

/-- `prohibitedCustomCodecKinds`. -/
def prohibitedKind : Kind → Bool
  | .invalid | .array | .slice | .string | .map | .ptr | .chan | .func | .unsafePointer => true
  | _ => false

namespace Registry

/-- `NewCoder()`, with no goroutine in it. -/
def init : Registry :=
  ⟨fun _ => none, fun _ => none, fun _ => none, fun _ => none, 0, fun _ => [], [], []⟩

section Moves

variable (s : Registry) (g : Nat)

/-- The top call of `g` returns `x` as the codec of `k`. -/
def ret (k : Key) (x : Entry) : Registry :=
  { s with calls := Function.update s.calls g (s.calls g).tail, log := s.log ++ [(k, x)] }

/-- The top call of `g` returns nothing. -/
def pop : Registry := { s with calls := Function.update s.calls g (s.calls g).tail }

/-- A panic on `g`: its calls unwind. -/
def abort (p : RegistryPanic) : Registry :=
  { s with calls := Function.update s.calls g [], panics := s.panics ++ [(g, p)] }

/-- The top call of `g` goes on as `f`. -/
def become (f : Frame) : Registry :=
  { s with calls := Function.update s.calls g (f :: (s.calls g).tail) }

/-- `g` makes the call `f`. -/
def push (f : Frame) : Registry := { s with calls := Function.update s.calls g (f :: s.calls g) }

end Moves

/-- The key whose codec the call `f` returns: a lookup's key, or the key of the job a winning
`getNewCodec` runs. `RegisterCodecReflect` returns no codec. -/
def frameKey (s : Registry) : Frame → Option Key
  | .getCodec k | .getNew k => some k
  | .getBase t => some ⟨t, []⟩
  | .job d => (s.jobs d).map Job.key
  | .register .. => none

variable (e : Env)

/-- `return c.(xCodec)` for the entry `x` found at `k`. -/
def found (s : Registry) (g : Nat) (k : Key) (x : Entry) : Registry :=
  if x.isXCodec e.reflectOnly then s.ret g k x else s.abort g .notXCodec

/-- The next atomic step of the call `f` on top of `g`. -/
def stepFrame (s : Registry) (g : Nat) : Frame → Registry
  | .getCodec k =>
    match s.known k with
    | some x => found e s g k x
    | none => s.become g (.getNew k)
  | .getBase t =>
    match s.base t with
    | some x => found e s g ⟨t, []⟩ x
    | none => s.become g (.getNew ⟨t, []⟩)
  | .getNew k =>
    match s.known k with
    | some x => found e s g k x
    | none =>
      let s' : Registry :=
        { s with known := Function.update s.known k (some (.deferred s.fresh)), fresh := s.fresh + 1 }
      match buildCodec e.U e.w k with
      | .error m =>
        { s'.abort g (.build m) with jobs := Function.update s.jobs s.fresh (some (.panicked k m)) }
      | .ok b =>
        { s'.become g (.job s.fresh) with
          jobs := Function.update s.jobs s.fresh (some (.built k b.codec (.building b.lookups))) }
  | .job d =>
    match s.jobs d with
    | some (.built k c (.building (l :: ls))) =>
      { s.push g (.getCodec l) with jobs := Function.update s.jobs d (some (.built k c (.building ls))) }
    | some (.built k c (.building [])) =>
      { s with
        known := Function.update s.known k (some (.built c))
        jobs := Function.update s.jobs d (some (.built k c .storedKnown)) }
    | some (.built k c .storedKnown) =>
      { s with
        base := if k.tag = [] then Function.update s.base k.type (some (.built c)) else s.base
        jobs := Function.update s.jobs d (some (.built k c .storedBase)) }
    | some (.built k c .storedBase) =>
      { s.ret g k (.built c) with
        real := Function.update s.real d (some (.built c))
        jobs := Function.update s.jobs d (some (.built k c .resolved)) }
    | _ => s.pop g
  | .register t c =>
    if prohibitedKind (e.U.kind t) then s.abort g (.prohibitedKind t)
    else if (e.U.info t).predeclared then s.abort g (.primitive t)
    else match s.known ⟨t, []⟩ with
      | none => { s.pop g with known := Function.update s.known ⟨t, []⟩ (some (.user c)) }
      | some x =>
        if !x.isXCodec e.reflectOnly then s.abort g .notXCodec
        else if x.isUserCodec c then s.pop g else s.abort g (.alreadyRegistered t)

/-- One scheduling choice. A goroutine starts a call only when idle. -/
def exec (s : Registry) : Action → Registry
  | .call g op => if (s.calls g).isEmpty then s.push g op.frame else s
  | .step g =>
    match s.calls g with
    | [] => s
    | f :: _ => stepFrame e s g f

/-- A run: the scheduling choices in order. -/
def run (s : Registry) (as : List Action) : Registry := as.foldl (exec e) s

@[simp] theorem run_nil (s : Registry) : run e s [] = s := rfl

theorem run_cons (s : Registry) (a : Action) (as : List Action) :
    run e s (a :: as) = run e (exec e s a) as := rfl

theorem run_append (s : Registry) (as bs : List Action) :
    run e s (as ++ bs) = run e (run e s as) bs := List.foldl_append _ _ _ _

/-- The codec a call through the entry `x` runs: `x` itself, or the codec a placeholder was
resolved to; `none` when a placeholder is not resolved, and the call waits on `dc.wg`. -/
def target (s : Registry) : Entry → Option Entry
  | .deferred d => s.real d
  | x => some x

end Registry

end OncXdr
