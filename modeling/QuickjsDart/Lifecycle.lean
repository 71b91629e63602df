import Mathlib.Data.List.Count
import Mathlib.Data.List.Basic

/-!
# The life of an engine

Which native functions the engine calls on its runtime and its context, from the factory to `stop`.
The functions that take or release a reference are named by the symbol that their binding looks up.
Script code runs inside an operation, where handlers may start further operations: open operations
are a stack. A future that a handler returned completes at any later time at which none is open.

No run is balanced (`run_not_balanced`): each `evalScript` takes two references to the context, and
no binding refers to `JS_FreeRuntime`. Nothing keeps a stopped engine from being used; a run in
which the program itself takes care is quiet after `stop` (`run_quiet`).
-/

namespace QuickjsDart

/-! ## Native functions -/

/-- The functions on values that the engine and the completion of a future call. All of them take
the context. -/
inductive ValueFn where
  | getGlobalObject
  | setPropertyStr
  | setProp
  | getProperty
  | newString
  | newNull
  | installDartHook
  | isFunction
  | dartCallJs
  | freeValue
  | isNumber
  | toInt32
  | other (id : ℕ)
  deriving DecidableEq

/-- The symbols of the library. -/
inductive Symbol where
  | newRuntime
  | newContext
  | jsFreeContext
  | jsDupContext
  | jsFreeRuntime
  | jsSetMaxStackSize
  | registerDartCallbackFP
  | isJobPending
  | executePendingJob
  | eval
  | onValue (f : ValueFn)
  deriving DecidableEq

/-- The symbols that the bindings of `ffi_base.dart` look up. -/
def newRuntimeName : Symbol := .newRuntime

/-- `JS_NewContext` is bound under its own name. -/
def newContextName : Symbol := .newContext

/-- `JS_FreeContext` is bound under its own name. -/
def freeContextName : Symbol := .jsFreeContext

/-- `JS_DupContext` is bound under its own name. -/
def dupContextName : Symbol := .jsDupContext

/-- `JS_FreeRuntime` is bound under the name of another function. -/
def freeRuntimeName : Symbol := .jsSetMaxStackSize

/-- A pointer of the library. -/
inductive Pointer where
  | runtime (p : ℕ)
  | context (p : ℕ)
  deriving DecidableEq

/-- A call of a native function with the runtime or the context it is given. -/
structure NativeCall where
  symbol : Symbol
  arg : Option Pointer
  deriving DecidableEq

/-- An engine is its two pointers. -/
structure JSEngine where
  rt : ℕ
  ctx : ℕ
  deriving DecidableEq

namespace JSEngine

variable (e : JSEngine)

/-- A call on the runtime. -/
def onRuntime (symbol : Symbol) : NativeCall := ⟨symbol, some (.runtime e.rt)⟩

/-- A call on the context. -/
def onContext (symbol : Symbol) : NativeCall := ⟨symbol, some (.context e.ctx)⟩

/-- Calls on values. -/
def onValues (fs : List ValueFn) : List NativeCall := fs.map fun f => e.onContext (.onValue f)

/-- The calls of `evalScript`, before and after the script has run. -/
def evalScript : List NativeCall × List NativeCall :=
  ([e.onContext dupContextName, e.onContext .eval], [e.onContext dupContextName])

/-- `setGlobalObject`. -/
def setGlobalObject : List NativeCall := e.onValues [.getGlobalObject, .setPropertyStr]

/-- `_setGlobalPromiseGetter`. -/
def setGlobalPromiseGetter : List NativeCall :=
  e.evalScript.1 ++ e.evalScript.2 ++ e.onValues [.getGlobalObject, .newString, .setProp]

/-- `_registerDartFP`. -/
def registerDartFP : List NativeCall := [⟨.registerDartCallbackFP, none⟩]

/-- `setGlobalConsole`. -/
def setGlobalConsole : List NativeCall :=
  e.onValues [.getGlobalObject, .newString, .installDartHook] ++ e.evalScript.1 ++ e.evalScript.2

/-- `init`. -/
def init : List NativeCall :=
  e.setGlobalObject ++ e.setGlobalPromiseGetter ++ registerDartFP ++ e.setGlobalConsole

/-- The constructor `_internal`. -/
def internal : List NativeCall :=
  ⟨newRuntimeName, none⟩ :: e.onRuntime newContextName :: e.init

/-- `stop`, and `dispose`. -/
def stop : List NativeCall := [e.onContext freeContextName, e.onRuntime freeRuntimeName]

end JSEngine

/-! ## Operations -/

/-- The operations inside which script code runs. -/
inductive Operation where
  | evalScript
  | callJS
  /-- `JSEngine.loop` where there are pending jobs. -/
  | loop
  /-- A callback of `wrapperFunc` on a future, with the calls that convert the result. -/
  | completion (fs : List ValueFn)
  deriving DecidableEq

/-- What an operation calls before script code runs. -/
def Operation.before (e : JSEngine) : Operation → List NativeCall
  | evalScript => e.evalScript.1
  | callJS => e.onValues [.isFunction, .newNull, .dartCallJs]
  | loop => [e.onRuntime .isJobPending, e.onRuntime .executePendingJob]
  | completion fs => e.onValues (.getProperty :: fs ++ [.isFunction, .newNull, .dartCallJs])

/-- What an operation calls afterwards. -/
def Operation.after (e : JSEngine) : Operation → List NativeCall
  | evalScript => e.evalScript.2
  | callJS => []
  | loop => e.onValues [.isNumber, .toInt32]
  | completion _ => e.onValues [.freeValue]

/-- An open operation. -/
structure Frame where
  op : Operation
  engine : JSEngine

/-- What is observed of a run. -/
inductive Event where
  | native (c : NativeCall)
  | handedOut (e : JSEngine)
  | stopped (e : JSEngine)
  deriving DecidableEq

/-- The state of the program: the static `_instance`, the open operations with the innermost first,
the engines of the futures that are not completed, and what was observed. -/
structure World where
  nextPointer : ℕ
  current : Option JSEngine
  stack : List Frame
  pending : List JSEngine
  trace : List Event

/-- The program at its start. -/
def World.start : World := ⟨0, none, [], [], []⟩

/-- Note native calls. -/
def World.call (w : World) (cs : List NativeCall) : World :=
  { w with trace := w.trace ++ cs.map .native }

/-- The engine has been stopped. -/
def World.Stopped (w : World) (e : JSEngine) : Prop := Event.stopped e ∈ w.trace

/-- A step of the program, of a running script, or of Dart's event loop. -/
inductive Step where
  /-- `JSEngine()`. -/
  | factory
  | begin (op : Operation) (e : JSEngine)
  /-- The innermost operation ends; a completion then runs the jobs, if there are any. -/
  | finish (hasJobs : Bool)
  /-- Conversions, property access and registrations. -/
  | values (e : JSEngine) (fs : List ValueFn)
  /-- `JSEngine.loop` where there is no job. -/
  | pollJobs (e : JSEngine)
  /-- A handler that the running script called returns a future. -/
  | future
  /-- A future completes. -/
  | complete (i : ℕ) (fs : List ValueFn)
  /-- `stop`, `dispose` and `JSEngine.stop`. -/
  | stop (e : JSEngine)
  deriving DecidableEq

/-- `_getInstance`. -/
def World.getInstance (w : World) : World :=
  match w.current with
  | some e => { w with trace := w.trace ++ [.handedOut e] }
  | none =>
    let e : JSEngine := ⟨w.nextPointer, w.nextPointer + 1⟩
    { w with
      nextPointer := w.nextPointer + 2
      current := some e
      trace := w.trace ++ e.internal.map .native ++ [.handedOut e] }

/-- One step, where it is possible. The program has only the engines that the factory handed out,
and futures complete while no operation is open. -/
def World.step (w : World) : Step → Option World
  | .factory => some w.getInstance
  | .begin op e =>
    if w.current = some e ∧ (op = .evalScript ∨ op = .callJS ∨ op = .loop) then
      some { w.call (op.before e) with stack := ⟨op, e⟩ :: w.stack }
    else none
  | .finish hasJobs =>
    match w.stack with
    | [] => none
    | ⟨.completion fs, e⟩ :: rest =>
      let w := w.call (Operation.after e (.completion fs))
      if hasJobs then some { w.call (Operation.before e .loop) with stack := ⟨.loop, e⟩ :: rest }
      else some { w.call [e.onRuntime .isJobPending] with stack := rest }
    | ⟨op, e⟩ :: rest => some { w.call (op.after e) with stack := rest }
  | .values e fs => if w.current = some e then some (w.call (e.onValues fs)) else none
  | .pollJobs e => if w.current = some e then some (w.call [e.onRuntime .isJobPending]) else none
  | .future =>
    match w.stack with
    | [] => none
    | f :: _ =>
      some { w.call (f.engine.onValues [.getGlobalObject, .getProperty, .isFunction, .newNull,
        .dartCallJs, .getProperty]) with pending := w.pending ++ [f.engine] }
  | .complete i fs =>
    match w.stack, w.pending[i]? with
    | [], some e =>
      some { w.call (Operation.before e (.completion fs)) with
        stack := [⟨.completion fs, e⟩]
        pending := w.pending.eraseIdx i }
    | _, _ => none
  | .stop e =>
    if w.current = some e then
      some { w.call e.stop with trace := (w.call e.stop).trace ++ [.stopped e] }
    else none

/-- A run. -/
def World.run (w : World) : List Step → Option World
  | [] => some w
  | s :: rest => (w.step s).bind fun w => w.run rest

/-! ## What a step does -/

/-- A call that releases nothing. -/
def NativeCall.Ordinary (c : NativeCall) : Prop :=
  c.symbol ≠ .jsFreeContext ∧ c.symbol ≠ .jsFreeRuntime

/-- The engine that a step of the program names. -/
def Step.engine? : Step → Option JSEngine
  | begin _ e => some e
  | values e _ => some e
  | pollJobs e => some e
  | stop e => some e
  | _ => none

/-- A step is a call of `stop`. -/
def Step.isStop : Step → Bool
  | stop _ => true
  | _ => false

/-- Calls on values free nothing of the engine. -/
theorem ordinary_onValues (e : JSEngine) (fs : List ValueFn) : ∀ c ∈ e.onValues fs, c.Ordinary := by
  intro c hc
  obtain ⟨f, -, rfl⟩ := List.mem_map.1 hc
  exact ⟨nofun, nofun⟩

/-- Neither does a question about jobs. -/
theorem ordinary_isJobPending (e : JSEngine) :
    ∀ c ∈ [e.onRuntime .isJobPending], c.Ordinary := by
  intro c hc
  rw [List.mem_singleton.1 hc]
  exact ⟨nofun, nofun⟩

/-- Neither does what an operation does first. -/
theorem ordinary_before (e : JSEngine) (op : Operation) : ∀ c ∈ op.before e, c.Ordinary := by
  cases op with
  | evalScript =>
    simp [Operation.before, JSEngine.evalScript, NativeCall.Ordinary, JSEngine.onContext,
      dupContextName]
  | callJS => exact ordinary_onValues e _
  | loop => simp [Operation.before, NativeCall.Ordinary, JSEngine.onRuntime]
  | completion fs => exact ordinary_onValues e _

/-- Neither does what it does last. -/
theorem ordinary_after (e : JSEngine) (op : Operation) : ∀ c ∈ op.after e, c.Ordinary := by
  cases op with
  | evalScript =>
    simp [Operation.after, JSEngine.evalScript, NativeCall.Ordinary, JSEngine.onContext,
      dupContextName]
  | callJS => nofun
  | loop => exact ordinary_onValues e _
  | completion fs => exact ordinary_onValues e _

/-- The state that `stop` leaves. -/
def World.stopWith (w : World) (e : JSEngine) : World :=
  { w with trace := w.trace ++ e.stop.map .native ++ [.stopped e] }

/-- The calls of a step that is neither `stop` nor the factory, and where they come from: an engine
that the program has, an open operation, or a future. -/
structure Acts (w : World) (s : Step) (w' : World) (cs : List NativeCall) : Prop where
  ordinary : ∀ c ∈ cs, c.Ordinary
  trace : w'.trace = w.trace ++ cs.map .native
  current : w'.current = w.current
  origin : (∃ e, s.engine? = some e ∧ w.current = some e) ∨ w.stack ≠ [] ∨ w.pending ≠ []

/-- Calls of two parts are one trace. -/
theorem trace_call_call (w : World) (cs ds : List NativeCall) :
    ((w.call cs).call ds).trace = w.trace ++ (cs ++ ds).map .native := by
  show w.trace ++ cs.map .native ++ ds.map .native = _
  rw [List.map_append, List.append_assoc]

/-- The end of an operation. -/
theorem finish_acts {w w' : World} {hasJobs : Bool} (h : w.step (.finish hasJobs) = some w') :
    ∃ cs, Acts w (.finish hasJobs) w' cs := by
  unfold World.step at h
  dsimp only at h
  have hne : ∀ {f : Frame} {rest}, w.stack = f :: rest → w.stack ≠ [] := by
    intro f rest hstack
    rw [hstack]
    nofun
  split at h
  · cases h
  · rename_i fs e rest hstack
    split_ifs at h
    · cases h
      exact ⟨_,
        List.forall_mem_append.2 ⟨ordinary_after e (.completion fs), ordinary_before e .loop⟩,
        trace_call_call w _ _, rfl, .inr (.inl (hne hstack))⟩
    · cases h
      exact ⟨_,
        List.forall_mem_append.2 ⟨ordinary_after e (.completion fs), ordinary_isJobPending e⟩,
        trace_call_call w _ _, rfl, .inr (.inl (hne hstack))⟩
  · rename_i op e rest _ hstack
    cases h
    exact ⟨_, ordinary_after e op, rfl, rfl, .inr (.inl (hne hstack))⟩

/-- A step is the factory, a stop, or an action of an engine. -/
theorem step_cases {w w' : World} {s : Step} (h : w.step s = some w') :
    (s = .factory ∧ w' = w.getInstance) ∨
      (∃ e, s = .stop e ∧ w.current = some e ∧ w' = w.stopWith e) ∨
      (s.isStop = false ∧ ∃ cs, Acts w s w' cs) := by
  cases s with
  | factory => exact .inl ⟨rfl, (Option.some.inj h).symm⟩
  | begin op e =>
    unfold World.step at h
    dsimp only at h
    split_ifs at h with hcond
    cases h
    exact .inr (.inr ⟨rfl, op.before e, ordinary_before e op, rfl, rfl, .inl ⟨e, rfl, hcond.1⟩⟩)
  | finish hasJobs => exact .inr (.inr ⟨rfl, finish_acts h⟩)
  | values e fs =>
    unfold World.step at h
    dsimp only at h
    split_ifs at h with hcond
    cases h
    exact .inr (.inr ⟨rfl, e.onValues fs, ordinary_onValues e fs, rfl, rfl, .inl ⟨e, rfl, hcond⟩⟩)
  | pollJobs e =>
    unfold World.step at h
    dsimp only at h
    split_ifs at h with hcond
    cases h
    exact .inr (.inr ⟨rfl, _, ordinary_isJobPending e, rfl, rfl, .inl ⟨e, rfl, hcond⟩⟩)
  | future =>
    unfold World.step at h
    dsimp only at h
    cases hstack : w.stack with
    | nil => rw [hstack] at h; cases h
    | cons f rest =>
      rw [hstack] at h
      cases h
      exact .inr
        (.inr ⟨rfl, _, ordinary_onValues f.engine _, rfl, rfl, .inr (.inl (by simp [hstack]))⟩)
  | complete i fs =>
    unfold World.step at h
    dsimp only at h
    split at h
    · rename_i e hstack hpending
      cases h
      refine .inr (.inr ⟨rfl, _, ordinary_before e (.completion fs), rfl, rfl, .inr (.inr ?_)⟩)
      rintro hnil
      rw [hnil] at hpending
      cases hpending
    · cases h
  | stop e =>
    unfold World.step at h
    dsimp only at h
    split_ifs at h with hcond
    cases h
    exact .inr (.inl ⟨e, rfl, hcond, rfl⟩)

/-! ## Balance -/

/-- The native functions that were called, in order. -/
def symbols (trace : List Event) : List Symbol :=
  trace.filterMap fun
    | .native c => some c.symbol
    | _ => none

/-- The references to a context that the wrapper has taken. -/
def contextsTaken (trace : List Event) : ℕ :=
  (symbols trace).count .newContext + (symbols trace).count .jsDupContext

/-- The references to a context that it has released. -/
def contextsReleased (trace : List Event) : ℕ := (symbols trace).count .jsFreeContext

/-- The runtimes that it has released. -/
def runtimesReleased (trace : List Event) : ℕ := (symbols trace).count .jsFreeRuntime

/-- Every reference to the context is released, and then the runtime, once. -/
structure Balanced (trace : List Event) : Prop where
  contexts : contextsTaken trace = contextsReleased trace
  runtime : runtimesReleased trace = 1
  order : ∀ before after, symbols trace = before ++ .jsFreeRuntime :: after → .jsFreeContext ∉ after

/-- Symbols are listed part by part. -/
theorem symbols_append (t u : List Event) : symbols (t ++ u) = symbols t ++ symbols u :=
  List.filterMap_append

/-- A native call has one symbol. -/
theorem symbols_native (cs : List NativeCall) :
    symbols (cs.map .native) = cs.map NativeCall.symbol := by
  unfold symbols
  rw [List.filterMap_map]
  exact congrFun List.filterMap_eq_map cs

/-- Contexts are counted part by part. -/
theorem contextsTaken_append (t u : List Event) :
    contextsTaken (t ++ u) = contextsTaken t + contextsTaken u := by
  unfold contextsTaken
  rw [symbols_append, List.count_append, List.count_append, Nat.add_add_add_comm]

/-- Released contexts are counted part by part. -/
theorem contextsReleased_append (t u : List Event) :
    contextsReleased (t ++ u) = contextsReleased t + contextsReleased u := by
  unfold contextsReleased
  rw [symbols_append, List.count_append]

/-- Released runtimes are counted part by part. -/
theorem runtimesReleased_append (t u : List Event) :
    runtimesReleased (t ++ u) = runtimesReleased t + runtimesReleased u := by
  unfold runtimesReleased
  rw [symbols_append, List.count_append]

/-- Ordinary calls release neither. -/
theorem released_ordinary {cs : List NativeCall} (h : ∀ c ∈ cs, c.Ordinary) :
    contextsReleased (cs.map .native) = 0 ∧ runtimesReleased (cs.map .native) = 0 := by
  unfold contextsReleased runtimesReleased
  rw [symbols_native]
  constructor
  · refine List.count_eq_zero.2 fun hmem => ?_
    obtain ⟨c, hc, heq⟩ := List.mem_map.1 hmem
    exact (h c hc).1 heq
  · refine List.count_eq_zero.2 fun hmem => ?_
    obtain ⟨c, hc, heq⟩ := List.mem_map.1 hmem
    exact (h c hc).2 heq

/-- What is known of the references after a number of calls of `stop`. -/
structure Counts (w : World) (stops : ℕ) : Prop where
  released : contextsReleased w.trace = stops
  runtimes : runtimesReleased w.trace = 0
  taken : ∀ e, w.current = some e → 5 ≤ contextsTaken w.trace
  started : 0 < stops → ∃ e, w.current = some e

/-- Nothing was counted yet. -/
theorem counts_start : Counts World.start 0 := ⟨rfl, rfl, nofun, nofun⟩

/-- The factory takes five references where it makes an engine. -/
theorem Counts.getInstance {w : World} {n : ℕ} (h : Counts w n) : Counts w.getInstance n := by
  unfold World.getInstance
  cases hcurrent : w.current with
  | some e =>
    refine ⟨?_, ?_, fun e' he' => ?_, fun _ => ⟨e, rfl⟩⟩
    · rw [contextsReleased_append, h.released]
      rfl
    · rw [runtimesReleased_append, h.runtimes]
      rfl
    · rw [contextsTaken_append]
      exact Nat.le_add_right_of_le (h.taken e hcurrent)
  | none =>
    refine ⟨?_, ?_, fun e' he' => ?_, fun _ => ⟨_, rfl⟩⟩
    · rw [contextsReleased_append, contextsReleased_append, h.released]
      rfl
    · rw [runtimesReleased_append, runtimesReleased_append, h.runtimes]
      rfl
    · rw [contextsTaken_append, contextsTaken_append]
      exact Nat.le_add_right_of_le (Nat.le_add_left_of_le (Nat.le_refl 5))

/-- A stop is one more, and gives back a context but no runtime. -/
theorem Counts.stopWith {w : World} {n : ℕ} (h : Counts w n) {e : JSEngine}
    (he : w.current = some e) : Counts (w.stopWith e) (n + 1) := by
  refine ⟨?_, ?_, fun e' he' => ?_, fun _ => ⟨e, he⟩⟩
  · show contextsReleased (w.trace ++ e.stop.map .native ++ [.stopped e]) = n + 1
    rw [contextsReleased_append, contextsReleased_append, h.released]
    rfl
  · show runtimesReleased (w.trace ++ e.stop.map .native ++ [.stopped e]) = 0
    rw [runtimesReleased_append, runtimesReleased_append, h.runtimes]
    rfl
  · show 5 ≤ contextsTaken (w.trace ++ e.stop.map .native ++ [.stopped e])
    rw [contextsTaken_append, contextsTaken_append]
    exact Nat.le_add_right_of_le (Nat.le_add_right_of_le (h.taken e' he'))

/-- An action takes contexts and gives none back. -/
theorem Counts.acts {w w' : World} {n : ℕ} (h : Counts w n) {s : Step} {cs : List NativeCall}
    (hacts : Acts w s w' cs) : Counts w' n := by
  obtain ⟨hcontexts, hruntimes⟩ := released_ordinary hacts.ordinary
  refine ⟨?_, ?_, fun e he => ?_, fun hpos => ?_⟩
  · rw [hacts.trace, contextsReleased_append, hcontexts, h.released]
    rfl
  · rw [hacts.trace, runtimesReleased_append, hruntimes, h.runtimes]
  · rw [hacts.current] at he
    rw [hacts.trace, contextsTaken_append]
    exact Nat.le_add_right_of_le (h.taken e he)
  · rw [hacts.current]
    exact h.started hpos

/-- One step, counted. -/
theorem Counts.step {w w' : World} {n : ℕ} (h : Counts w n) {s : Step}
    (hstep : w.step s = some w') :
    Counts w' (n + if s.isStop then 1 else 0) := by
  rcases step_cases hstep with ⟨rfl, rfl⟩ | ⟨e, rfl, he, rfl⟩ | ⟨hns, cs, hacts⟩
  · exact h.getInstance
  · exact h.stopWith he
  · rw [hns]
    exact h.acts hacts

/-- The references after a run. -/
theorem Counts.run {w w' : World} {n : ℕ} {steps : List Step} (h : Counts w n)
    (hrun : w.run steps = some w') : Counts w' (n + steps.countP Step.isStop) := by
  induction steps generalizing w n with
  | nil =>
    cases hrun
    exact h
  | cons s steps ih =>
    obtain ⟨w₁, hstep, hrest⟩ := Option.bind_eq_some_iff.1 hrun
    rw [List.countP_cons, Nat.add_comm (steps.countP _), ← Nat.add_assoc]
    exact ih (h.step hstep) hrest

/-- No run with one `stop` is balanced: references to the context are left over, and the runtime is
not released. -/
theorem run_not_balanced {steps : List Step} {w : World} (hrun : World.start.run steps = some w)
    (hstop : steps.countP Step.isStop = 1) :
    ¬ Balanced w.trace ∧ contextsReleased w.trace < contextsTaken w.trace ∧
      runtimesReleased w.trace = 0 := by
  have h := counts_start.run hrun
  rw [hstop] at h
  have hlt : contextsReleased w.trace < contextsTaken w.trace := by
    obtain ⟨e, he⟩ := h.started (by decide)
    have := h.taken e he
    rw [h.released]
    omega
  refine ⟨fun hbalanced => ?_, hlt, h.runtimes⟩
  exact absurd hbalanced.contexts (Nat.ne_of_gt hlt)

/-- The first engine of a program. -/
def firstEngine : JSEngine := ⟨0, 1⟩

/-- An engine that is only made and stopped. -/
theorem run_not_balanced_short :
    ∃ w, World.start.run [.factory, .stop firstEngine] = some w ∧ ¬ Balanced w.trace :=
  ⟨_, rfl, (@run_not_balanced [.factory, .stop firstEngine] _ rfl rfl).1⟩

/-- Five references are taken, one is released, and no runtime is. -/
theorem short_run_counts :
    ∃ w, World.start.run [.factory, .stop firstEngine] = some w ∧ contextsTaken w.trace = 5 ∧
      contextsReleased w.trace = 1 ∧ runtimesReleased w.trace = 0 ∧ ¬ Balanced w.trace := by
  refine ⟨_, rfl, rfl, rfl, rfl, fun h => ?_⟩
  exact absurd h.runtime (by decide)

/-! ## After `stop` -/

/-- An event uses an engine: a native call gets one of its pointers, or the factory returns it. -/
def Event.uses (e : JSEngine) : Event → Prop
  | native c => c.arg = some (.context e.ctx) ∨ c.arg = some (.runtime e.rt)
  | handedOut e' => e' = e
  | stopped _ => False

/-- Nothing uses an engine once it was stopped. -/
def Quiet (trace : List Event) : Prop :=
  ∀ before after e, trace = before ++ .stopped e :: after → ∀ ev ∈ after, ¬ ev.uses e

/-- What the program has to see to at a step. Open operations and futures are not in its hands. -/
def Careful (w : World) : Step → Prop
  | .factory => ∀ e, w.current = some e → ¬ w.Stopped e
  | .begin _ e => ¬ w.Stopped e
  | .values e _ => ¬ w.Stopped e
  | .pollJobs e => ¬ w.Stopped e
  | .stop e => ¬ w.Stopped e ∧ w.stack = [] ∧ w.pending = []
  | .finish _ => True
  | .future => True
  | .complete _ _ => True

/-- A run of a careful program. -/
inductive CarefulRun : World → List Step → World → Prop where
  | nil (w : World) : CarefulRun w [] w
  | cons {w w₁ w' : World} {s : Step} {rest : List Step} : Careful w s → w.step s = some w₁ →
      CarefulRun w₁ rest w' → CarefulRun w (s :: rest) w'

/-- After a `stop` the engine is the one that the program has, and nothing is left that would use
it. -/
structure AtRest (w : World) : Prop where
  quiet : Quiet w.trace
  idle : ∀ e, w.Stopped e → w.current = some e ∧ w.stack = [] ∧ w.pending = []

/-- Nothing follows a stop that did not happen. -/
theorem quiet_of_not_stopped {trace : List Event} (h : ∀ e, Event.stopped e ∉ trace) :
    Quiet trace := by
  rintro before after e rfl
  exact absurd (List.mem_append_right _ List.mem_cons_self) (h e)

/-- Nothing has to be at rest yet. -/
theorem atRest_of_not_stopped {w : World} (h : ∀ e, ¬ w.Stopped e) : AtRest w :=
  ⟨quiet_of_not_stopped h, fun e he => absurd he (h e)⟩

/-- No engine was stopped at the start. -/
theorem atRest_start : AtRest World.start := atRest_of_not_stopped nofun

/-- A native call stops no engine. -/
theorem stopped_notMem_native (cs : List NativeCall) (e : JSEngine) :
    Event.stopped e ∉ cs.map Event.native := by
  intro hmem
  obtain ⟨c, -, heq⟩ := List.mem_map.1 hmem
  cases heq

/-- The engine that is in use was not stopped, so none was. -/
theorem AtRest.none_stopped {w : World} (h : AtRest w)
    (horigin : (∃ e, w.current = some e ∧ ¬ w.Stopped e) ∨ w.current = none ∨ w.stack ≠ [] ∨
      w.pending ≠ []) (e : JSEngine) : ¬ w.Stopped e := by
  intro he
  obtain ⟨hcurrent, hstack, hpending⟩ := h.idle e he
  rcases horigin with ⟨e', he', hns⟩ | hnone | hne | hne
  · rw [hcurrent] at he'
    cases he'
    exact hns he
  · rw [hcurrent] at hnone
    cases hnone
  · exact hne hstack
  · exact hne hpending

/-- A careful step is on an engine that runs. -/
theorem Careful.not_stopped {w : World} {s : Step} (h : Careful w s) {e : JSEngine}
    (he : s.engine? = some e) : ¬ w.Stopped e := by
  cases s with
  | begin op e' => cases he; exact h
  | values e' fs => cases he; exact h
  | pollJobs e' => cases he; exact h
  | stop e' => cases he; exact h.1
  | factory => cases he
  | finish hasJobs => cases he
  | future => cases he
  | complete i fs => cases he

/-- The factory makes a new engine, or gives the one that runs. -/
theorem AtRest.getInstance {w : World} (h : AtRest w) (hcareful : Careful w .factory) :
    AtRest w.getInstance := by
  have hns : ∀ e, ¬ w.Stopped e := by
    refine h.none_stopped ?_
    cases hcurrent : w.current with
    | none => exact .inr (.inl rfl)
    | some e => exact .inl ⟨e, rfl, hcareful e hcurrent⟩
  refine atRest_of_not_stopped fun e he => ?_
  unfold World.Stopped World.getInstance at he
  cases hcurrent : w.current with
  | none =>
    rw [hcurrent] at he
    simp only [List.mem_append, List.mem_singleton] at he
    rcases he with (he | he) | he
    · exact hns e he
    · exact stopped_notMem_native _ e he
    · cases he
  | some e' =>
    rw [hcurrent] at he
    simp only [List.mem_append, List.mem_singleton] at he
    rcases he with he | he
    · exact hns e he
    · cases he

/-- The last event of the trace is the only one that stops an engine. -/
theorem AtRest.stopWith {w : World} (h : AtRest w) {e : JSEngine} (hcurrent : w.current = some e)
    (hcareful : Careful w (.stop e)) : AtRest (w.stopWith e) := by
  obtain ⟨hns, hstack, hpending⟩ := hcareful
  have hnone : ∀ e', Event.stopped e' ∉ w.trace ++ e.stop.map .native := by
    intro e' hmem
    rcases List.mem_append.1 hmem with hmem | hmem
    · exact h.none_stopped (.inl ⟨e, hcurrent, hns⟩) e' hmem
    · exact stopped_notMem_native _ e' hmem
  constructor
  · intro before after e' heq
    have heq' : w.trace ++ e.stop.map .native ++ [.stopped e] = before ++ .stopped e' :: after :=
      heq
    rcases List.eq_nil_or_concat after with rfl | ⟨after', ev, rfl⟩
    · nofun
    · rw [List.concat_eq_append, ← List.cons_append, ← List.append_assoc] at heq'
      have hinit := (List.append_inj' heq' rfl).1
      exact absurd (hinit ▸ List.mem_append_right _ List.mem_cons_self) (hnone e')
  · intro e' he'
    rcases List.mem_append.1 he' with hmem | hmem
    · exact absurd hmem (hnone e')
    · cases List.mem_singleton.1 hmem
      exact ⟨hcurrent, hstack, hpending⟩

/-- Careful steps leave stopped engines alone. -/
theorem AtRest.step {w w' : World} (h : AtRest w) {s : Step} (hcareful : Careful w s)
    (hstep : w.step s = some w') : AtRest w' := by
  rcases step_cases hstep with ⟨rfl, rfl⟩ | ⟨e, rfl, hcurrent, rfl⟩ | ⟨_, cs, hacts⟩
  · exact h.getInstance hcareful
  · exact h.stopWith hcurrent hcareful
  · have hns : ∀ e, ¬ w.Stopped e := by
      refine h.none_stopped ?_
      rcases hacts.origin with ⟨e, he, hcurrent⟩ | hstack | hpending
      · exact .inl ⟨e, hcurrent, hcareful.not_stopped he⟩
      · exact .inr (.inr (.inl hstack))
      · exact .inr (.inr (.inr hpending))
    refine atRest_of_not_stopped fun e he => ?_
    unfold World.Stopped at he
    rw [hacts.trace] at he
    rcases List.mem_append.1 he with he | he
    · exact hns e he
    · exact stopped_notMem_native _ e he

/-- So do careful runs. -/
theorem AtRest.run {w w' : World} {steps : List Step} (h : AtRest w)
    (hrun : CarefulRun w steps w') : AtRest w' := by
  induction hrun with
  | nil => exact h
  | cons hcareful hstep _ ih => exact ih (h.step hcareful hstep)

/-- A careful program is quiet after `stop`, in every state it reaches. -/
theorem run_quiet {steps : List Step} {w : World} (hrun : CarefulRun World.start steps w) :
    Quiet w.trace :=
  (atRest_start.run hrun).quiet

/-- A program that completes its future before it stops the engine. -/
def carefulSteps : List Step :=
  [.factory, .begin .evalScript firstEngine, .future, .finish false, .complete 0 [], .finish false,
    .stop firstEngine]

/-- A run that stops an engine and leaves it alone. -/
theorem run_quiet_future : ∃ w, CarefulRun World.start carefulSteps w ∧ w.Stopped firstEngine ∧
    Quiet w.trace := by
  have hrun : ∃ w, CarefulRun World.start carefulSteps w ∧ w.Stopped firstEngine := by
    refine ⟨_, .cons nofun rfl (.cons ?_ rfl (.cons trivial rfl (.cons trivial rfl
      (.cons trivial rfl (.cons trivial rfl (.cons ⟨?_, rfl, rfl⟩ rfl (.nil _))))))),
      List.mem_append_right _ List.mem_cons_self⟩
    · show Event.stopped firstEngine ∉ _
      decide
    · show Event.stopped firstEngine ∉ _
      decide
  obtain ⟨w, hrun, hstopped⟩ := hrun
  exact ⟨w, hrun, hstopped, run_quiet hrun⟩

/-- A use of an engine that was stopped. -/
theorem not_quiet_of_stopped {trace evs : List Event} {e : JSEngine} (hstopped : .stopped e ∈ trace)
    {ev : Event} (hev : ev ∈ evs) (huses : ev.uses e) : ¬ Quiet (trace ++ evs) := by
  intro hquiet
  obtain ⟨before, after, rfl⟩ := List.append_of_mem hstopped
  refine hquiet before (after ++ evs) e ?_ ev (List.mem_append_right _ hev) huses
  rw [List.append_assoc, List.cons_append]

/-- The program of `main.dart`, where a future is not completed when the engine is stopped, and a
program that asks the factory again. -/
theorem main_not_quiet :
    (∃ w, World.start.run [.factory, .begin .evalScript firstEngine, .future, .finish false,
        .stop firstEngine, .complete 0 []] = some w ∧ ¬ Quiet w.trace) ∧
      ∃ w, World.start.run [.factory, .stop firstEngine, .factory] = some w ∧ ¬ Quiet w.trace := by
  constructor
  · refine ⟨_, rfl,
      not_quiet_of_stopped (List.mem_append_right _ List.mem_cons_self) List.mem_cons_self ?_⟩
    exact .inl rfl
  · refine ⟨_, rfl,
      not_quiet_of_stopped (List.mem_append_right _ List.mem_cons_self) List.mem_cons_self ?_⟩
    rfl

end QuickjsDart
