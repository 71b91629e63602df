import QuickjsDart.Heap

/-!
# The state of the bridge

What the bridge keeps between calls: the heap and the pending exception of QuickJS, the registry of
Dart handlers, and the job queue. Computations on it either stay inside QuickJS (`JS`), where they
may raise a JavaScript exception, or belong to the Dart side (`Dart`), where they may throw.

Code that is not the bridge's own is an `Env`: script functions and exotic objects, and what QuickJS
does by itself when it calls one. So is the layout of arrays, which decides what becomes of their
elements when they get shorter. `ffi` is a call from Dart into C whose JavaScript exception is
left pending.
-/

namespace QuickjsDart

open Codec

/-- How a QuickJS operation ends when it does not return: an error of QuickJS's own, a value thrown
by script code, or the end of the process. -/
inductive JSFault where
  | error (message : String)
  | value (v : JSValue)
  | crash
  deriving DecidableEq

/-- One registration of a handler: the id it got, and the function object installed for it. -/
structure Registration where
  id : ℤ
  handler : Handler
  func : Ref
  deriving DecidableEq

/-- A call of a handler that returned a future, with the first of the four cells that
`createPromise` made for it. `due` is set when the future completes, to `true` where the promise has
to be rejected; the counters say how often each of its functions was called, how often the holder
was freed, and how often it was used after that. -/
structure AsyncCall where
  future : ℕ
  holder : Ref
  due : Option Bool
  resolved : ℕ
  rejected : ℕ
  freed : ℕ
  usedAfterFree : ℕ

/-- A pending job of the runtime: the reactions of a settled promise, or
`js_promise_resolve_thenable_job`. -/
inductive Job where
  | reactions (promise : Ref)
  | thenable (promise : Ref) (resolution thenFunc : JSValue)
  deriving DecidableEq

/-- The state of the engine. `registrations` and `calls` list what was registered and which futures
were returned, in order; no code reads them. -/
structure VM where
  heap : Heap
  currentException : Option JSFault
  /-- The global `dartHandlerMap`, in insertion order; `none` is Dart's `null`. -/
  dartHandlerMap : Option (List (ℤ × Handler))
  /-- `_nextFuncHandlerId`. -/
  nextFuncHandlerId : Option ℤ
  jobs : List Job
  registrations : List Registration
  calls : List AsyncCall

/-- A computation inside QuickJS. -/
abbrev JS := EStateM JSFault VM

/-- A computation of the Dart side. -/
abbrev Dart := EStateM Fault VM

/-- How `set_array_length` takes away what lies behind the new length: it asks for the elements from
the old length down, or it goes through the entries of the array's shape. The deletions of the
second way move entries that are still to come, and the elements in `left` are passed over. A fast
array loses its elements as by the first way. -/
inductive CutPass where
  | elements
  | shape (left : List PropKey)

/-- Code outside the bridge, as QuickJS and Dart run it, and what the layout of an array decides,
which `Obj` does not keep. -/
structure Env where
  /-- `JS_Call` on a function object of a script. -/
  call : Ref → JSValue → List JSValue → JS JSValue
  /-- The body of a `DartCHandler`, with `this` and the arguments. The result is what the pointer it
  returns points at. -/
  handler : Handler → JSValue → Option (List JSValue) → Dart JSValue
  /-- One pending job. -/
  runJob : Job → JS Unit
  /-- `[[Get]]`, `[[Set]]`, `[[DefineOwnProperty]]`, the enumerable own keys and `IsArray` of an
  exotic object. -/
  getExotic : Ref → PropKey → JSValue → JS JSValue
  setExotic : Ref → PropKey → JSValue → JSValue → JS Bool
  defineExotic : Ref → PropKey → JSValue → Flags → JS Bool
  keysExotic : Ref → JS (List Utf16)
  isArrayExotic : Ref → JS Bool
  /-- An exotic object that can be called. -/
  isFunctionExotic : Ref → Bool
  /-- `JS_GetPrototypePrimitive`. -/
  primitiveProto : JSValue → Option Ref
  /-- `JS_ToNumber` of a value that is no number. -/
  toNumber : JSValue → JS JSValue
  /-- `fast_array`: the elements of the array are not in its shape. -/
  fastArray : Heap → Ref → Bool
  /-- The way that `set_array_length` takes when it makes an array shorter. -/
  cutPass : Heap → Ref → ℕ → CutPass
  /-- `CONFIG_BIGNUM`, which the build for iOS defines and the other two do not. -/
  bigNum : Bool

/-! ## Fixed cells -/

/-- `Object.prototype`. -/
def objectPrototype : Ref := 0

/-- `Array.prototype`. -/
def arrayPrototype : Ref := 1

/-- `Function.prototype`. -/
def functionPrototype : Ref := 2

/-- `Promise.prototype`. -/
def promisePrototype : Ref := 3

/-- The global object. -/
def globalObject : Ref := 4

/-- The symbol `Symbol.toPrimitive`. -/
def symbolToPrimitive : Ref := 5

/-- `Error.prototype`. -/
def errorPrototype : Ref := 6

/-- The name `__proto__`. -/
def protoName : Utf16 :=
  asciiUnits [0x5F, 0x5F, 0x70, 0x72, 0x6F, 0x74, 0x6F, 0x5F, 0x5F]

/-- The name `toJSON`. -/
def toJSONName : Utf16 := asciiUnits [0x74, 0x6F, 0x4A, 0x53, 0x4F, 0x4E]

/-- The name `__promise__getter` that `_setGlobalPromiseGetter` uses. -/
def promiseGetterName : Utf16 :=
  asciiUnits [0x5F, 0x5F, 0x70, 0x72, 0x6F, 0x6D, 0x69, 0x73, 0x65, 0x5F, 0x5F, 0x67, 0x65, 0x74,
    0x74, 0x65, 0x72]

/-- A started engine with no more than the cells that the bridge refers to. -/
def VM.bare : VM where
  heap :=
    [⟨1, .obj ⟨.object, none, true,
        [(.name protoName, .accessor none (some 7) ⟨false, false, true⟩)]⟩⟩,
      ⟨1, .obj ⟨.array 0, some objectPrototype, true, []⟩⟩,
      ⟨1, .obj ⟨.object, some objectPrototype, true, []⟩⟩,
      ⟨1, .obj ⟨.object, some objectPrototype, true, []⟩⟩,
      ⟨1, .obj ⟨.object, some objectPrototype, true,
        [(.name promiseGetterName, .data (.object 8) .cwe)]⟩⟩,
      ⟨1, .leaf⟩,
      ⟨1, .obj ⟨.object, some objectPrototype, true, []⟩⟩,
      ⟨1, .obj ⟨.function .protoSetter, some functionPrototype, true, []⟩⟩,
      ⟨1, .obj ⟨.function .createPromise, some functionPrototype, true, []⟩⟩]
  currentException := none
  dartHandlerMap := none
  nextFuncHandlerId := none
  jobs := []
  registrations := []
  calls := []

/-! ## Changing the heap -/

namespace VM

/-- Apply a change to the heap. -/
def mapHeap (vm : VM) (f : Heap → Heap) : VM := { vm with heap := f vm.heap }

/-- Allocate a cell. -/
def alloc (vm : VM) (b : Body) : VM := vm.mapHeap fun h => Memory.alloc h b

/-- Replace an object. -/
def setObj (vm : VM) (r : Ref) (o : Obj) : VM := vm.mapHeap fun h => h.setObj r o

/-- `JS_DupValue`. -/
def dup (vm : VM) (v : JSValue) : VM := vm.mapHeap fun h => h.dupValue v

/-- `JS_FreeValue`. -/
def free (vm : VM) (v : JSValue) : VM := vm.mapHeap fun h => h.freeValue v

/-- `JS_EnqueueJob`. -/
def enqueue (vm : VM) (job : Job) : VM := { vm with jobs := vm.jobs ++ [job] }

end VM

/-! ## The heap after a change -/

section

variable {vm : VM}

/-- A new cell is one more. -/
@[simp] theorem VM.length_alloc (vm : VM) (b : Body) :
    (vm.alloc b).heap.length = vm.heap.length + 1 := by
  simp [VM.alloc, VM.mapHeap]

/-- `JS_DupValue` makes no cell. -/
@[simp] theorem VM.length_dup (vm : VM) (v : JSValue) :
    (vm.dup v).heap.length = vm.heap.length := by
  simp [VM.dup, VM.mapHeap]

/-- A write makes no cell. -/
@[simp] theorem VM.length_setObj (vm : VM) (r : Ref) (o : Obj) :
    (vm.setObj r o).heap.length = vm.heap.length := by
  simp [VM.setObj, VM.mapHeap]

/-- A new object is read back, and the others as before. -/
theorem VM.obj?_alloc (vm : VM) (o : Obj) (r : Ref) :
    (vm.alloc (.obj o)).heap.obj? r = if r = vm.heap.length then some o else vm.heap.obj? r := by
  rw [VM.alloc, VM.mapHeap, Heap.obj?_alloc]

/-- `JS_FreeValue` changes no object. -/
theorem VM.obj?_free (vm : VM) (v : JSValue) (r : Ref) : (vm.free v).heap.obj? r = vm.heap.obj? r :=
  Heap.obj?_freeValue _ _ _

/-- `JS_DupValue` changes no object. -/
theorem VM.obj?_dup (vm : VM) (v : JSValue) (r : Ref) : (vm.dup v).heap.obj? r = vm.heap.obj? r :=
  Heap.obj?_dupValue _ _ _

/-- A new cell replaces no object. -/
theorem obj?_alloc_of_some {b : Body} {r : Ref} {o : Obj} (ho : vm.heap.obj? r = some o) :
    (vm.alloc b).heap.obj? r = some o := by
  rw [VM.alloc, VM.mapHeap, Heap.obj?_alloc, if_neg (Heap.lt_length_of_obj? ho).ne, ho]

/-- An object after an allocation is the new one or an old one. -/
theorem obj?_of_alloc {b : Body} {r : Ref} {o : Obj} (ho : (vm.alloc b).heap.obj? r = some o) :
    r = vm.heap.length ∧ b = .obj o ∨ vm.heap.obj? r = some o := by
  rw [VM.alloc, VM.mapHeap, Heap.obj?_alloc] at ho
  split_ifs at ho with hr
  · cases b with
    | leaf => cases ho
    | obj q =>
      cases ho
      exact .inl ⟨hr, rfl⟩
  · exact .inr ho

/-- A write changes no other object. -/
theorem obj?_setObj_of_ne {r x : Ref} {o o' q : Obj} (ho : vm.heap.obj? r = some o)
    (hx : x ≠ r) (hq : vm.heap.obj? x = some q) : (vm.setObj r o').heap.obj? x = some q := by
  rw [VM.setObj, VM.mapHeap, Heap.obj?_setObj ho, if_neg hx, hq]

/-- The written object is read back. -/
theorem obj?_setObj_eq {r : Ref} {o : Obj} (ho : vm.heap.obj? r = some o) (o' : Obj) :
    (vm.setObj r o').heap.obj? r = some o' := by
  rw [VM.setObj, VM.mapHeap, Heap.obj?_setObj ho, if_pos rfl]

/-- An object after a write is the written one or an old one. -/
theorem obj?_of_setObj {r x : Ref} {o o' q : Obj} (ho : vm.heap.obj? r = some o)
    (hq : (vm.setObj r o').heap.obj? x = some q) : x = r ∧ q = o' ∨ vm.heap.obj? x = some q := by
  rw [VM.setObj, VM.mapHeap, Heap.obj?_setObj ho] at hq
  split_ifs at hq with hx
  · cases hq
    exact .inl ⟨hx, rfl⟩
  · exact .inr hq

/-- The release of a value that refers to nothing. -/
theorem heap_free_of_ref?_eq_none {v : JSValue} (hv : v.ref? = none) (vm : VM) :
    (vm.free v).heap = vm.heap := by
  show Memory.release Body.refs v.ref?.toList vm.heap = vm.heap
  rw [hv]
  exact Memory.releaseFuel_nil _ _

end

/-- An environment without scripts, handlers and exotic objects. -/
def Env.bare : Env where
  call _ _ _ := throw (.error "not a function")
  handler _ _ _ := throw (.throws .noSuchMethod)
  runJob _ := pure ()
  getExotic _ _ _ := pure .undefined
  setExotic _ _ _ _ := pure false
  defineExotic _ _ _ _ := pure false
  keysExotic _ := pure []
  isArrayExotic _ := pure false
  isFunctionExotic _ := false
  primitiveProto _ := none
  toNumber _ := pure (.float64 .nan)
  fastArray _ _ := true
  cutPass _ _ _ := .elements
  bigNum := true

section

variable {α β : Type}

/-- A call from Dart into C that may raise a JavaScript exception: C returns `dflt`, the exception
is left pending, and Dart goes on. -/
def ffi (dflt : α) (op : JS α) : Dart α := fun vm =>
  match op vm with
  | .ok a vm' => .ok a vm'
  | .error .crash vm' => .error .crash vm'
  | .error e vm' => .ok dflt { vm' with currentException := some e }

/-- A call that returns leaves nothing pending. -/
theorem ffi_of_ok {dflt a : α} {op : JS α} {vm vm' : VM} (h : op vm = .ok a vm') :
    ffi dflt op vm = .ok a vm' := by
  unfold ffi
  rw [h]

/-- A call into C does not throw. -/
theorem ffi_error {dflt : α} {op : JS α} {vm vm' : VM} {e : Fault}
    (h : ffi dflt op vm = .error e vm') : e = .crash := by
  unfold ffi at h
  cases hrun : op vm with
  | ok a vm₁ => rw [hrun] at h; cases h
  | error d vm₁ =>
    rw [hrun] at h
    cases d with
    | crash => cases h; rfl
    | error m => cases h
    | value v => cases h

/-- The state that a run ends in. -/
def endState {ε : Type} : EStateM.Result ε VM α → VM
  | .ok _ vm => vm
  | .error _ vm => vm

/-- A bind that returns has two parts that do. -/
theorem bind_eq_ok {ε σ : Type} {x : EStateM ε σ α} {f : α → EStateM ε σ β} {s s'' : σ} {b : β} :
    (x >>= f) s = .ok b s'' ↔ ∃ a s', x s = .ok a s' ∧ f a s' = .ok b s'' := by
  show EStateM.bind x f s = _ ↔ _
  unfold EStateM.bind
  cases x s with
  | ok a s' => simp
  | error e s' => simp

/-- A bind that fails does so in one of its two parts. -/
theorem bind_eq_error {ε σ : Type} {x : EStateM ε σ α} {f : α → EStateM ε σ β} {s s'' : σ} {e : ε} :
    (x >>= f) s = .error e s'' ↔
      x s = .error e s'' ∨ ∃ a s', x s = .ok a s' ∧ f a s' = .error e s'' := by
  show EStateM.bind x f s = _ ↔ _
  unfold EStateM.bind
  cases x s with
  | ok a s' => simp
  | error e s' => simp

/-- A bind whose first part returns goes on with the second. -/
theorem bind_of_ok {ε σ : Type} {x : EStateM ε σ α} {f : α → EStateM ε σ β} {s s' : σ} {a : α}
    (h : x s = .ok a s') : (x >>= f) s = f a s' := by
  show EStateM.bind x f s = _
  unfold EStateM.bind
  rw [h]

/-- Reading the state. -/
theorem get_bind {ε σ : Type} {f : σ → EStateM ε σ β} {s : σ} : (get >>= f) s = f s s := rfl

/-- A bind whose first part fails fails. -/
theorem bind_of_error {ε σ : Type} {x : EStateM ε σ α} {f : α → EStateM ε σ β} {s s' : σ} {e : ε}
    (h : x s = .error e s') : (x >>= f) s = .error e s' := by
  show EStateM.bind x f s = _
  unfold EStateM.bind
  rw [h]

end

end QuickjsDart
