import QuickjsDart.Heap
import QuickjsDart.Protocol.Deferred

/-!
# Promises and their reactions

`JSPromiseData` with its two lists of reactions, the resolving functions with their shared flag, the
jobs that these leave behind, and everything in QuickJS that calls them: the `Promise` constructor,
promise capabilities, `then`, `Promise.resolve` and `Promise.reject`, `await`, and the two kinds of
jobs.

Between two operations of this code any other code may run: a getter for `then`, an executor, a
handler, a species constructor, a Dart callback, and each of these may settle promises, register
reactions and run pending jobs. So the machine has a stack of the native functions that wait for
such code. A native function runs up to its next `JS_Call` or `JS_GetProperty` in one step, and what
other code does is open (`Step`).
-/

namespace QuickjsDart

namespace Reactions

open Relation

/-! ## Data -/

/-- `JSPromiseReactionData`. The promise that it was made for is not read by any code. -/
structure ReactionData where
  resolveFunc : JSValue
  rejectFunc : JSValue
  handler : JSValue
  promise : Ref
  deriving DecidableEq

/-- `JSPromiseData`: the state with the result, and the lists for `fulfill` and `reject`. -/
structure PromiseData where
  state : PromiseState
  fulfillReactions : List ReactionData
  rejectReactions : List ReactionData
  isHandled : Bool
  deriving DecidableEq

/-- `JSPromiseFunctionDataResolved`. The promise of the functions that share it is kept here as
well; no code reads it. -/
structure Resolved where
  alreadyResolved : Bool
  promise : Ref
  deriving DecidableEq

/-- An object, as far as the code of promises tells them apart. -/
inductive PromiseObj where
  | promise (s : PromiseData)
  /-- `JS_CLASS_PROMISE_RESOLVE_FUNCTION`, and `JS_CLASS_PROMISE_REJECT_FUNCTION`. -/
  | resolveFunction (isReject : Bool) (promise : Ref) (presolved : ℕ)
  /-- The function of `js_promise_executor_new`, with its data. -/
  | executor (resolve reject : JSValue)
  /-- `Promise`. -/
  | promiseConstructor
  /-- `Promise.prototype.then`. -/
  | promiseThen
  /-- `Promise.resolve`, and `Promise.reject`. -/
  | promiseResolve (isReject : Bool)
  | function
  | object
  deriving DecidableEq

/-- A job. -/
inductive PromiseJob where
  /-- `promise_reaction_job`. -/
  | reaction (rd : ReactionData) (isReject : Bool) (arg : JSValue)
  /-- `js_promise_resolve_thenable_job`. -/
  | thenable (promise : Ref) (thenable thenFunc : JSValue)
  deriving DecidableEq

/-- What a call gives back. -/
inductive Outcome where
  | value (v : JSValue)
  | throws (e : JSValue)
  deriving DecidableEq

/-- What is done with a new promise capability. -/
inductive Capability where
  /-- `JS_NewPromiseCapability`. -/
  | new
  /-- `js_promise_then`. -/
  | promiseThen (promise : Ref) (onFulfilled onRejected : JSValue)
  /-- `js_promise_resolve`. -/
  | promiseResolve (isReject : Bool) (v : JSValue)
  deriving DecidableEq

/-- A function that waits for the code above it. -/
inductive Frame where
  | code
  /-- `js_promise_constructor`, in `js_create_from_ctor`. -/
  | createFromCtor (executor : JSValue)
  /-- `js_promise_constructor`, in the executor. -/
  | executing (promise : Ref) (reject : JSValue)
  /-- `js_promise_constructor`, in the call of the rejecting function. -/
  | rejecting (promise : Ref)
  /-- `js_new_promise_capability`, in the constructor. -/
  | capability (executor : Ref) (k : Capability)
  /-- `js_promise_then`, in `JS_SpeciesConstructor`. -/
  | species (promise : Ref) (onFulfilled onRejected : JSValue)
  /-- `js_promise_resolve`, in the lookup of `constructor`. -/
  | getConstructor (ctor v : JSValue)
  /-- `js_promise_resolve`, in the call of the resolving function. -/
  | resolving (result : JSValue)
  /-- `js_promise_resolve_function_call`, in the lookup of `then`. -/
  | getThen (promise : Ref) (resolution : JSValue)
  /-- `js_promise_resolve_thenable_job`, in the call of `then`. -/
  | thenable (reject : JSValue)
  /-- `promise_reaction_job`, in the handler. -/
  | reaction (resolveFunc rejectFunc : JSValue)
  deriving DecidableEq

/-- What happens next. -/
inductive Control where
  /-- Other code runs. -/
  | code
  /-- `JS_Call`. -/
  | call (f this : JSValue) (args : List JSValue)
  /-- `JS_CallConstructor` with one argument. -/
  | construct (ctor executor : JSValue)
  /-- A result for the function on top of the stack. -/
  | ret (r : Outcome)
  deriving DecidableEq

/-- A registration: what `perform_promise_then` is given. -/
structure Registered where
  promise : Ref
  onFulfilled : JSValue
  onRejected : JSValue
  resolveFunc : JSValue
  rejectFunc : JSValue
  deriving DecidableEq

/-- The reaction for one of the two outcomes. -/
def Registered.data (w : Registered) (isReject : Bool) : ReactionData :=
  ⟨w.resolveFunc, w.rejectFunc, if isReject then w.onRejected else w.onFulfilled, w.promise⟩

/-- The state. `ran` are the jobs that were started, `registered` what was registered, and `late`
counts the calls of `fulfill_or_reject_promise` that the source says should never happen; no code
reads these. -/
structure Machine where
  objs : List PromiseObj
  presolved : List Resolved
  jobs : List PromiseJob
  stack : List Frame
  control : Control
  ran : List PromiseJob
  registered : List Registered
  late : ℕ
  deriving DecidableEq

/-- The outcome of a promise, and whether it is a rejection. -/
def outcomeOf : PromiseState → Option (Bool × JSValue)
  | .pending => none
  | .fulfilled v => some (false, v)
  | .rejected v => some (true, v)

/-- The data of a promise. -/
def PromiseObj.promise? : PromiseObj → Option PromiseData
  | promise s => some s
  | _ => none

/-- `JS_GetOpaque` for `JS_CLASS_PROMISE`. -/
def Machine.promise? (m : Machine) (p : Ref) : Option PromiseData :=
  (m.objs[p]?).bind PromiseObj.promise?

/-- A promise is written. -/
def Machine.setPromise (m : Machine) (p : Ref) (s : PromiseData) : Machine :=
  { m with objs := m.objs.set p (.promise s) }

/-- A new cell. -/
def Machine.alloc (m : Machine) (o : PromiseObj) : Machine := { m with objs := m.objs ++ [o] }

/-- A job goes to the end of the queue. -/
def Machine.enqueue (m : Machine) (job : PromiseJob) : Machine := { m with jobs := m.jobs ++ [job] }

/-- A call is entered. -/
def Machine.push (m : Machine) (f : Frame) : Machine := { m with stack := f :: m.stack }

/-- Code goes on somewhere else. -/
def Machine.goto (m : Machine) (c : Control) : Machine := { m with control := c }

/-- `JS_IsFunction`. -/
def Machine.isFunction (m : Machine) : JSValue → Bool
  | .object r =>
    match m.objs[r]? with
    | some (.promise _) => false
    | some .object => false
    | some _ => true
    | none => false
  | _ => false

/-- `JS_ThrowTypeError`. -/
def Machine.throwTypeError (m : Machine) : Machine :=
  (m.alloc .object).goto (.ret (.throws (.object m.objs.length)))

/-! ## Promises -/

/-- `fulfill_or_reject_promise`. -/
def fulfillOrReject (p : Ref) (v : JSValue) (isReject : Bool) (m : Machine) : Machine :=
  match m.promise? p with
  | some s =>
    match s.state with
    | .pending =>
      let state := if isReject then .rejected v else .fulfilled v
      let reactions := if isReject then s.rejectReactions else s.fulfillReactions
      let m := m.setPromise p { s with state, fulfillReactions := [], rejectReactions := [] }
      { m with jobs := m.jobs ++ reactions.map fun rd => .reaction rd isReject v }
    | _ => { m with late := m.late + 1 }
  | none => { m with late := m.late + 1 }

/-- `js_create_resolving_functions`. The functions are the last two objects then. -/
def createResolvingFunctions (p : Ref) (m : Machine) : Machine :=
  let c := m.presolved.length
  { m with presolved := m.presolved ++ [⟨false, p⟩],
           objs := m.objs ++ [.resolveFunction false p c, .resolveFunction true p c] }

/-- `js_promise_resolve_function_call`, up to the lookup of `then`. -/
def resolveFunctionCall (isReject : Bool) (p : Ref) (c : ℕ) (args : List JSValue) (m : Machine) :
    Machine :=
  match m.presolved[c]? with
  | some ⟨false, q⟩ =>
    let m := { m with presolved := m.presolved.set c ⟨true, q⟩ }
    let resolution := args.headD .undefined
    match isReject, resolution with
    | false, .object r =>
      if r = p then
        -- promise self resolution
        let error := JSValue.object m.objs.length
        (fulfillOrReject p error true (m.alloc .object)).goto (.ret (.value .undefined))
      else (m.push (.getThen p resolution)).goto .code
    | _, _ => (fulfillOrReject p resolution isReject m).goto (.ret (.value .undefined))
  | _ => m.goto (.ret (.value .undefined))

/-- The rest of it. -/
def resolveWithThen (p : Ref) (resolution : JSValue) (r : Outcome) (m : Machine) : Machine :=
  let m := match r with
    | .throws error => fulfillOrReject p error true m
    | .value thenFunc =>
      if m.isFunction thenFunc then m.enqueue (.thenable p resolution thenFunc)
      else fulfillOrReject p resolution false m
  m.goto (.ret (.value .undefined))

/-- `perform_promise_then`. -/
def performPromiseThen (p : Ref) (onFulfilled onRejected resolveFunc rejectFunc : JSValue)
    (m : Machine) : Machine :=
  match m.promise? p with
  | some s =>
    let handler := fun h => if m.isFunction h then h else JSValue.undefined
    let w : Registered := ⟨p, handler onFulfilled, handler onRejected, resolveFunc, rejectFunc⟩
    let m := { m with registered := m.registered ++ [w] }
    match outcomeOf s.state with
    | none =>
      m.setPromise p
        { s with fulfillReactions := s.fulfillReactions ++ [w.data false],
                 rejectReactions := s.rejectReactions ++ [w.data true], isHandled := true }
    | some (isReject, v) =>
      (m.enqueue (.reaction (w.data isReject) isReject v)).setPromise p { s with isHandled := true }
  | none => m

/-- `js_promise_constructor`, after `js_create_from_ctor`. -/
def promiseConstructor (executor : JSValue) (m : Machine) : Machine :=
  let p := m.objs.length
  let m := createResolvingFunctions p (m.alloc (.promise ⟨.pending, [], [], false⟩))
  let resolve := JSValue.object (p + 1)
  let reject := JSValue.object (p + 2)
  (m.push (.executing p reject)).goto (.call executor .undefined [resolve, reject])

/-- `js_promise_executor`: an argument is kept where none is yet, the first before the second. -/
def promiseExecutor (r : Ref) (resolve reject : JSValue) (args : List JSValue) (m : Machine) :
    Machine :=
  let first := args.headD .undefined
  let second := args.tail.headD .undefined
  if resolve = .undefined then
    if reject = .undefined then
      { m with objs := m.objs.set r (.executor first second) }.goto (.ret (.value .undefined))
    else { m with objs := m.objs.set r (.executor first reject) }.throwTypeError
  else m.throwTypeError

/-- `js_new_promise_capability`. -/
def newPromiseCapability (ctor : JSValue) (k : Capability) (m : Machine) : Machine :=
  let executor := m.objs.length
  let m := (m.alloc (.executor .undefined .undefined)).push (.capability executor k)
  if ctor = .undefined then promiseConstructor (.object executor) m
  else m.goto (.construct ctor (.object executor))

/-- What follows a new capability. -/
def withCapability (k : Capability) (result resolve reject : JSValue) (m : Machine) : Machine :=
  match k with
  | .new => m.goto (.ret (.value result))
  | .promiseThen p onFulfilled onRejected =>
    (performPromiseThen p onFulfilled onRejected resolve reject m).goto (.ret (.value result))
  | .promiseResolve isReject v =>
    (m.push (.resolving result)).goto
      (.call (if isReject then reject else resolve) .undefined [v])

/-- `js_promise_then`, up to `JS_SpeciesConstructor`. -/
def promiseThen (this : JSValue) (args : List JSValue) (m : Machine) : Machine :=
  match this with
  | .object p =>
    match m.promise? p with
    | some _ =>
      (m.push (.species p (args.headD .undefined) (args.tail.headD .undefined))).goto .code
    | none => m.throwTypeError
  | _ => m.throwTypeError

/-- `js_promise_resolve`. -/
def promiseResolve (isReject : Bool) (this : JSValue) (args : List JSValue) (m : Machine) :
    Machine :=
  let v := args.headD .undefined
  match this with
  | .object _ =>
    match isReject, v with
    | false, .object p =>
      if (m.promise? p).isSome then (m.push (.getConstructor this v)).goto .code
      else newPromiseCapability this (.promiseResolve isReject v) m
    | _, _ => newPromiseCapability this (.promiseResolve isReject v) m
  | _ => m.throwTypeError

/-! ## Calls and results -/

/-- `JS_Call`. -/
def jsCall (f this : JSValue) (args : List JSValue) (m : Machine) : Machine :=
  match f with
  | .object r =>
    match m.objs[r]? with
    | some (.resolveFunction isReject p c) => resolveFunctionCall isReject p c args m
    | some (.executor resolve reject) => promiseExecutor r resolve reject args m
    | some .promiseThen => promiseThen this args m
    | some (.promiseResolve isReject) => promiseResolve isReject this args m
    | some .function => m.goto .code
    -- `Promise` has to be called with `new`
    | _ => m.throwTypeError
  | _ => m.throwTypeError

/-- `JS_CallConstructor` with one argument. -/
def jsConstruct (ctor executor : JSValue) (m : Machine) : Machine :=
  match ctor with
  | .object r =>
    match m.objs[r]? with
    | some .promiseConstructor =>
      if m.isFunction executor then (m.push (.createFromCtor executor)).goto .code
      else m.throwTypeError
    | some .function => m.goto .code
    | _ => m.throwTypeError
  | _ => m.throwTypeError

/-- The function of a frame goes on with a result. -/
def resume (f : Frame) (r : Outcome) (m : Machine) : Machine :=
  match f, r with
  | .code, _ => m.goto .code
  | .createFromCtor executor, .value _ => promiseConstructor executor m
  | .executing p _, .value _ => m.goto (.ret (.value (.object p)))
  | .executing p reject, .throws e =>
    (m.push (.rejecting p)).goto (.call reject .undefined [e])
  | .rejecting p, .value _ => m.goto (.ret (.value (.object p)))
  | .capability executor k, .value result =>
    match m.objs[executor]? with
    | some (.executor resolve reject) =>
      if m.isFunction resolve && m.isFunction reject then withCapability k result resolve reject m
      else m.throwTypeError
    | _ => m.throwTypeError
  | .species p onFulfilled onRejected, .value ctor =>
    newPromiseCapability ctor (.promiseThen p onFulfilled onRejected) m
  | .getConstructor ctor v, .value c =>
    if c = ctor then m.goto (.ret (.value v))
    else newPromiseCapability ctor (.promiseResolve false v) m
  | .resolving result, .value _ => m.goto (.ret (.value result))
  | .getThen p resolution, _ => resolveWithThen p resolution r m
  | .thenable _, .value v => m.goto (.ret (.value v))
  | .thenable reject, .throws e => m.goto (.call reject .undefined [e])
  | .reaction resolveFunc rejectFunc, _ =>
    let (func, res) := match r with
      | .value v => (resolveFunc, v)
      | .throws e => (rejectFunc, e)
    if func = .undefined then m.goto (.ret (.value .undefined))
    else m.goto (.call func .undefined [res])
  | _, .throws e => m.goto (.ret (.throws e))

/-- The job functions. -/
def runJob (job : PromiseJob) (m : Machine) : Machine :=
  match job with
  | .reaction rd isReject arg =>
    let m := m.push (.reaction rd.resolveFunc rd.rejectFunc)
    if rd.handler = .undefined then
      m.goto (.ret (if isReject then .throws arg else .value arg))
    else m.goto (.call rd.handler .undefined [arg])
  | .thenable p thenable thenFunc =>
    let resolve := JSValue.object m.objs.length
    let reject := JSValue.object (m.objs.length + 1)
    ((createResolvingFunctions p m).push (.thenable reject)).goto
      (.call thenFunc thenable [resolve, reject])

/-- `JS_ExecutePendingJob`, where a job is pending. -/
def executePendingJob (job : PromiseJob) (rest : List PromiseJob) (m : Machine) : Machine :=
  runJob job { m with jobs := rest, ran := m.ran ++ [job] }

/-! ## Runs -/

/-- A step. Where other code runs, it may do anything that code outside this module can do to
promises: call functions and constructors, make functions and other objects, await, ask for a
promise capability, run a pending job, and return or throw any value. -/
inductive Step : Machine → Machine → Prop
  | ret {m : Machine} {r : Outcome} {f : Frame} {rest : List Frame} : m.control = .ret r →
      m.stack = f :: rest → Step m (resume f r { m with stack := rest })
  | call {m : Machine} {f this : JSValue} {args : List JSValue} : m.control = .call f this args →
      Step m (jsCall f this args m)
  /-- The stack overflows, or the interrupt handler asks to stop. -/
  | interrupt {m : Machine} {f this : JSValue} {args : List JSValue} (e : JSValue) :
      m.control = .call f this args → Step m (m.goto (.ret (.throws e)))
  | construct {m : Machine} {ctor executor : JSValue} : m.control = .construct ctor executor →
      Step m (jsConstruct ctor executor m)
  | codeCall {m : Machine} (f this : JSValue) (args : List JSValue) : m.control = .code →
      Step m ((m.push .code).goto (.call f this args))
  | codeConstruct {m : Machine} (ctor executor : JSValue) : m.control = .code →
      Step m ((m.push .code).goto (.construct ctor executor))
  | codeCapability {m : Machine} : m.control = .code →
      Step m (newPromiseCapability .undefined .new (m.push .code))
  | codeAwait {m : Machine} (p : Ref) (onFulfilled onRejected : JSValue) : m.control = .code →
      (m.promise? p).isSome →
      Step m (performPromiseThen p onFulfilled onRejected .undefined .undefined m)
  | codeFunction {m : Machine} : m.control = .code → Step m (m.alloc .function)
  | codeObject {m : Machine} : m.control = .code → Step m (m.alloc .object)
  | codeJob {m : Machine} {job : PromiseJob} {rest : List PromiseJob} : m.control = .code →
      m.jobs = job :: rest → Step m (executePendingJob job rest (m.push .code))
  | codeReturn {m : Machine} (r : Outcome) : m.control = .code → Step m (m.goto (.ret r))

/-- A run. -/
def Run : Machine → Machine → Prop := ReflTransGen Step

/-- The machine of a new context: `Promise` and its functions. -/
def Machine.start : Machine :=
  ⟨[.promiseConstructor, .promiseThen, .promiseResolve false, .promiseResolve true], [], [], [],
    .code, [], [], 0⟩

end Reactions

end QuickjsDart
