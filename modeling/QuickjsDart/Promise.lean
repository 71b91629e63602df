import QuickjsDart.Property

/-!
# Promises

The part of QuickJS's promises that the bridge drives: `createPromise`, the script function that
`_setGlobalPromiseGetter` installs, and the call of a resolving function.

Reactions are jobs of the environment. The functions of a promise share one `already_resolved` flag,
which is kept with the promise.
-/

namespace QuickjsDart

open Codec

/-- The names of the holder's properties, and `then`. -/
def resolveName : Utf16 := asciiUnits [0x72, 0x65, 0x73, 0x6F, 0x6C, 0x76, 0x65]

/-- The name `reject`. -/
def rejectName : Utf16 := asciiUnits [0x72, 0x65, 0x6A, 0x65, 0x63, 0x74]

/-- The name `promise`. -/
def promiseName : Utf16 := asciiUnits [0x70, 0x72, 0x6F, 0x6D, 0x69, 0x73, 0x65]

/-- The name `then`. -/
def thenName : Utf16 := asciiUnits [0x74, 0x68, 0x65, 0x6E]

/-- A fresh object of a class. -/
def Obj.fresh (cls : ObjClass) (proto : Ref) : Obj := ⟨cls, some proto, true, []⟩

/-- The holder `{resolve, reject, promise}`. -/
def holderObj (resolve reject promise : JSValue) : Obj :=
  { Obj.fresh .object objectPrototype with
    props := [(.name resolveName, .data resolve .cwe), (.name rejectName, .data reject .cwe),
      (.name promiseName, .data promise .cwe)] }

/-- `createPromise`: the holder, a pending promise, and its two resolving functions. -/
def createPromise : JS JSValue := fun vm =>
  let holder := vm.heap.length
  let promise := holder + 1
  let vm := vm.alloc (.obj (holderObj .undefined .undefined .undefined))
  let vm := vm.alloc (.obj (.fresh (.promise .pending false) promisePrototype))
  let vm := (vm.dup (.object promise)).alloc
    (.obj (.fresh (.function (.resolving promise false)) functionPrototype))
  let vm := (vm.dup (.object promise)).alloc
    (.obj (.fresh (.function (.resolving promise true)) functionPrototype))
  .ok (.object holder) (vm.setObj holder
    (holderObj (.object (holder + 2)) (.object (holder + 3)) (.object promise)))

/-- `fulfill_or_reject_promise`. -/
def fulfillOrRejectPromise (promise : Ref) (v : JSValue) (isReject : Bool) (vm : VM) : VM :=
  match vm.heap.obj? promise with
  | some o =>
    match o.cls with
    | .promise .pending already =>
      let state := if isReject then .rejected v else .fulfilled v
      ((vm.dup v).setObj promise { o with cls := .promise state already }).enqueue
        (.reactions promise)
    | _ => vm
  | none => vm

/-- `JS_GetException`: the value that a script threw, or the error object QuickJS made. -/
def jsGetException (e : JSFault) (vm : VM) : JSValue × VM :=
  match e with
  | .value v => (v, vm)
  | _ => (.object vm.heap.length, vm.alloc (.obj (.fresh .error errorPrototype)))

variable (env : Env)

/-- `JS_IsFunction`. -/
def isFunction (h : Heap) : JSValue → Bool
  | .object r =>
    match h.obj? r with
    | some o =>
      match o.cls with
      | .function _ => true
      | .exotic _ => env.isFunctionExotic r
      | _ => false
    | none => false
  | _ => false

/-- The part of `js_promise_resolve_function_call` after the flag was set. -/
def resolvePromise (promise : Ref) (isReject : Bool) (resolution : JSValue) : JS JSValue :=
  fun vm => match isReject, resolution with
  | false, .object r =>
    if r = promise then
      let (error, vm) := jsGetException (.error "promise self resolution") vm
      .ok .undefined ((fulfillOrRejectPromise promise error true vm).free error)
    else
      match jsGetProperty env resolution (.name thenName) vm with
      | .error .crash vm => .error .crash vm
      | .error e vm =>
        let (error, vm) := jsGetException e vm
        .ok .undefined ((fulfillOrRejectPromise promise error true vm).free error)
      | .ok thenFunc vm =>
        if isFunction env vm.heap thenFunc then
          -- the job holds a reference to each of its arguments
          let vm := ((vm.dup (.object promise)).dup resolution).dup thenFunc
          .ok .undefined ((vm.enqueue (.thenable promise resolution thenFunc)).free thenFunc)
        else .ok .undefined (fulfillOrRejectPromise promise resolution false (vm.free thenFunc))
  | _, _ => .ok .undefined (fulfillOrRejectPromise promise resolution isReject vm)

/-- `js_promise_resolve_function_call`. -/
def resolveFunctionCall (promise : Ref) (isReject : Bool) (args : List JSValue) : JS JSValue :=
  fun vm =>
  match vm.heap.obj? promise with
  | some o =>
    match o.cls with
    | .promise state false =>
      resolvePromise env promise isReject (args.headD .undefined)
        (vm.setObj promise { o with cls := .promise state true })
    | _ => .ok .undefined vm
  | none => .ok .undefined vm

end QuickjsDart
