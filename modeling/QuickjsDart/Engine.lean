import QuickjsDart.Promise
import QuickjsDart.Text

/-!
# The bridge

The operations of `JSValue` and `JSEngine` on handles, over the C functions that they call: making
values, properties, registering handlers, dispatching a call to its handler, calling functions, and
the conversion `toJSVal` of Dart values.

A handle is the value its pointer points at. Handles that the source drops without `free` stay
counted.
-/

namespace QuickjsDart

open Codec

/-! ## Making values -/

/-- `JS_NewFloat64`: a number that an `int` tag holds exactly gets it. -/
def jsNewFloat64 (d : Binary64) : JSValue :=
  if d.isInt ∧ -2 ^ 31 ≤ d.trunc ∧ d.trunc < 2 ^ 31 ∧ Binary64.ofInt d.trunc = d then
    .int (Int32.ofInt d.trunc)
  else .float64 d

/-- `JSValue.newInt32`: the argument crosses as an `Int32`. -/
def newInt32 (n : Int64) : Dart JSValue := pure (.int (Int32.ofInt n.toInt))

/-- `JSValue.newInt64`. -/
def newInt64 (n : Int64) : Dart JSValue := pure (intValue n.toInt)

/-- `JSValue.newUint32`: the argument crosses as a `Uint32`. -/
def newUint32 (n : Int64) : Dart JSValue := pure (intValue (n.toInt % 2 ^ 32))

/-- `JSValue.newFloat64`. -/
def newFloat64 (d : Binary64) : Dart JSValue := pure (jsNewFloat64 d)

/-- `JSValue.newBool`. -/
def newBool (b : Bool) : Dart JSValue := pure (.bool b)

/-- `JSValue.newNull`. -/
def newNull : Dart JSValue := pure .null

/-- `JSValue.newUndefined`. -/
def newUndefined : Dart JSValue := pure .undefined

/-- A handle to a new cell. -/
def newCell (mk : Ref → JSValue) (b : Body) : Dart JSValue := fun vm =>
  .ok (mk vm.heap.length) (vm.alloc b)

/-- `JSValue.newString`. -/
def newString (s : Utf16) : Dart JSValue := newCell (fun r => .string r (ffiString s)) .leaf

/-- `JSValue.newAtomString`: the string of a new atom. -/
def newAtomString (s : Utf16) : Dart JSValue := newString s

/-- `JS_NewBigInt64` and `JS_NewBigUint64`. A build without BigInts raises
(`JS_ThrowUnsupportedBigint`). -/
def jsNewBigInt (env : Env) (n : ℤ) : JS JSValue := fun vm =>
  if env.bigNum then .ok (.bigInt vm.heap.length n) (vm.alloc .leaf)
  else .error (.error "bigint is not supported") vm

/-- `JSValue.newBigInt64`. -/
def newBigInt64 (env : Env) (n : Int64) : Dart JSValue := ffi .exception (jsNewBigInt env n.toInt)

/-- `JSValue.newBigUint64`: the argument crosses as a `Uint64`. -/
def newBigUint64 (env : Env) (n : Int64) : Dart JSValue :=
  ffi .exception (jsNewBigInt env (n.toInt % 2 ^ 64))

/-- `JSValue.newObject`. -/
def newObject : Dart JSValue := newCell .object (.obj (.fresh .object objectPrototype))

/-- `JSValue.newArray`. -/
def newArray : Dart JSValue := newCell .object (.obj (.fresh (.array 0) arrayPrototype))

/-- `JSValue.newError`. -/
def newError : Dart JSValue := newCell .object (.obj (.fresh .error errorPrototype))

/-- `JSEngine.global`. -/
def globalHandle : Dart JSValue := fun vm =>
  .ok (.object globalObject) (vm.dup (.object globalObject))

/-! ## Properties -/

/-- A property name of the Dart side, declared `dynamic`. -/
inductive PropName where
  | int (n : Int64)
  | string (s : Utf16)
  | null
  deriving DecidableEq

/-- The text of `null.toString()`. -/
def nullName : Utf16 := asciiUnits [0x6E, 0x75, 0x6C, 0x6C]

/-- The key under which QuickJS knows a name: `newInt32` or `newString`, then `JS_ValueToAtom`. -/
def PropName.key : PropName → PropKey
  | int n => .ofInt32 (Int32.ofInt n.toInt)
  | string s => .ofString (ffiString s)
  | null => .ofString (ffiString nullName)

/-- The handle that `setProperty` and `createNewFunction` make for a name. -/
def PropName.handle : PropName → Dart JSValue
  | int n => newInt32 n
  | string s => newString s
  | null => newString nullName

variable (env : Env)

/-- The C function `setProp`: the value is duplicated, and the outcome is not reported. -/
def setProp (this : JSValue) (key : PropKey) (v : JSValue) (throwFlag : Bool) : JS Unit := fun vm =>
  match jsSetPropertyInternal env this key v throwFlag (vm.dup v) with
  | .ok _ vm => .ok () vm
  | .error e vm => .error e vm

/-- `JSValue.setProperty`. -/
def setProperty (this : JSValue) (name : PropName) (v : JSValue) (throwFlag : Bool) :
    Dart Unit := do
  let _ ← name.handle
  ffi () (setProp env this name.key v throwFlag)

/-- `JSValue.setPropertyString`. `JS_SetPropertyStr` throws where it fails. -/
def setPropertyString (this : JSValue) (name : Utf16) (v : JSValue) : Dart Unit := do
  let _ ← ffi false (jsSetPropertyInternal env this (.ofString (ffiString name)) v true)

/-- `JSValue.setPropertyValue`. -/
def setPropertyValue (this : JSValue) (name : Utf16) (v : JSValue) (throwFlag : Bool) :
    Dart Unit := do
  let _ ← ffi false (jsSetPropertyInternal env this (.ofString (ffiString name)) v throwFlag)

/-- `JSValue.getProperty`. -/
def getProperty (this : JSValue) (name : Utf16) : Dart JSValue :=
  ffi .exception (jsGetProperty env this (.ofString (ffiString name)))

/-! ## Handlers -/

/-- `++` on a Dart `int`. -/
def int64Succ (n : ℤ) : ℤ := (Int64.ofInt (n + 1)).toInt

/-- `Map.putIfAbsent` on a map in insertion order. -/
def putIfAbsent (id : ℤ) (h : Handler) (m : List (ℤ × Handler)) : List (ℤ × Handler) :=
  match m.lookup id with
  | some _ => m
  | none => m ++ [(id, h)]

/-- The Dart part of `createNewFunction`: the next id, with its entry in the map. -/
def nextHandlerId (h : Handler) : Dart ℤ := fun vm =>
  let id := int64Succ (vm.nextFuncHandlerId.getD 0)
  .ok id { vm with
    nextFuncHandlerId := some id
    dartHandlerMap := some (putIfAbsent id h (vm.dartHandlerMap.getD [])) }

/-- The function object of a hook. -/
def hookObj (id : ℤ) : Obj := .fresh (.function (.dart (intValue id))) functionPrototype

/-- `JS_NewCFunctionData` in `installDartHook`. The handler is only noted in `registrations`. -/
def newHook (id : ℤ) (h : Handler) (vm : VM) : VM :=
  { vm.alloc (.obj (hookObj id)) with
    registrations := vm.registrations ++ [⟨id, h, vm.heap.length⟩] }

/-- No function object is registered for two handlers. -/
def Registered (vm : VM) : Prop :=
  ∀ g ∈ vm.registrations, ∀ g' ∈ vm.registrations, g.func = g'.func → g.handler = g'.handler

/-- `installDartHook`: the function object keeps its first reference, and the property takes a
second. -/
def installDartHook (this : JSValue) (key : PropKey) (id : ℤ) (h : Handler) : JS Unit := fun vm =>
  let func := .object vm.heap.length
  match jsDefinePropertyValue env this key func .cw ((newHook id h vm).dup func) with
  | .ok _ vm => .ok () vm
  | .error e vm => .error e vm

/-- `JSEngine.createNewFunction`. -/
def createNewFunction (name : PropName) (h : Handler) (toVal : Option JSValue) : Dart Unit := do
  if name = .null then throw (.throws .funcName)
  let _ ← name.handle
  let id ← nextHandlerId h
  let this ← match toVal with
    | some v => pure v
    | none => globalHandle
  ffi () (installDartHook env this name.key id h)

/-- `JS_ToInt64` of a number. -/
def toInt64 : JSValue → ℤ
  | .int n => n.toInt
  | .float64 d => (Int64.ofInt d.trunc).toInt
  | _ => 0

/-- The handler that `callBackWrapper` finds for the data of a function object. -/
def findHandler (vm : VM) (data : JSValue) : Except DartError Handler :=
  match vm.dartHandlerMap with
  | none => .error .noSuchMethod
  | some m =>
    match m.lookup (toInt64 data) with
    | none => .error (.noCallback (toInt64 data))
    | some h => .ok h

/-- The argument list of a handler: `null` where there are no arguments. -/
def handlerArgs : List JSValue → Option (List JSValue)
  | [] => none
  | args => some args

/-- `JSEngine.callBackWrapper`. -/
def callBackWrapper (this : JSValue) (args : List JSValue) (data : JSValue) : Dart JSValue :=
  fun vm => match findHandler vm data with
  | .error e => .error (.throws e) vm
  | .ok h => env.handler h this (handlerArgs args) vm

/-- `InvokeDartCallback`. A throwing wrapper yields a null pointer, which is read. An exception that
is returned is the pending one. -/
def invokeDartCallback (this : JSValue) (args : List JSValue) (data : JSValue) : JS JSValue :=
  fun vm =>
  match callBackWrapper env this args data vm with
  | .error _ vm => .error .crash vm
  | .ok .exception vm =>
    .error (vm.currentException.getD (.value .undefined)) { vm with currentException := none }
  | .ok v vm => .ok v vm

/-! ## Calls -/

/-- `JS_Call`. -/
def jsCall (f this : JSValue) (args : List JSValue) : JS JSValue := fun vm =>
  match f with
  | .object r =>
    match vm.heap.obj? r with
    | some o =>
      match o.cls with
      | .function (.dart data) => invokeDartCallback env this args data vm
      | .function .protoSetter => protoSet this (args.headD .undefined) vm
      | .function .createPromise => createPromise vm
      | .function (.resolving p isReject) => resolveFunctionCall env p isReject args vm
      | .function (.script _) => env.call r this args vm
      | .exotic _ => env.call r this args vm
      | _ => .error (.error "not a function") vm
    | none => .error .crash vm
  | _ => .error (.error "not a function") vm

/-- `JSValue.callJS`. -/
def callJS (f : JSValue) (params : Option (List JSValue)) : Dart JSValue := fun vm =>
  if isFunction env vm.heap f then ffi .exception (jsCall env f .null (params.getD [])) vm
  else .error (.throws (.quickJS "not Function")) vm

/-- `JSValue.free`. -/
def freeHandle (v : JSValue) : Dart Unit := fun vm => .ok () (vm.free v)

/-- `JSValue.copy`, and the C function `dupValue`. -/
def dupHandle (v : JSValue) : Dart JSValue := fun vm => .ok v (vm.dup v)

/-! ## Conversion from Dart -/

mutual

/-- `JSEngine.createJSArray`. -/
def createJSArray (elems : List DartVal) : Dart JSValue := do
  let jsArray ← newArray
  setElements jsArray 0 elems
  pure jsArray

/-- The loop of `createJSArray` from an index on. -/
def setElements (jsArray : JSValue) (i : ℕ) : List DartVal → Dart Unit
  | [] => pure ()
  | v :: rest => do
    setMember jsArray (.int (Int64.ofNat i)) v
    setElements jsArray (i + 1) rest

/-- `JSEngine.createJSObject`. -/
def createJSObject (entries : List (Option Utf16 × DartVal)) : Dart JSValue := do
  let jsObj ← newObject
  setEntries jsObj entries
  pure jsObj

/-- The `forEach` of `createJSObject`. -/
def setEntries (jsObj : JSValue) : List (Option Utf16 × DartVal) → Dart Unit
  | [] => pure ()
  | (key, v) :: rest => do
    setMember jsObj (key.elim .null .string) v
    setEntries jsObj rest

/-- The `switch` that `createJSArray` and `createJSObject` share. A `double` falls through to the
empty `default`. -/
def setMember (target : JSValue) (name : PropName) : DartVal → Dart Unit
  | .int n => do setProperty env target name (← newInt32 n) true
  | .string s => do setProperty env target name (← newString s) true
  | .bool b => do setProperty env target name (← newBool b) true
  | .double _ => pure ()
  | .list elems => do setProperty env target name (← createJSArray elems) true
  | .map entries => do setProperty env target name (← createJSObject entries) true
  | .otherMap _ => throw (.throws .castError)
  | .handler h => createNewFunction env name h (some target)
  | v => throw (.throws (.notSupported v.runtimeType))

end

/-- `JSEngine.toJSVal`. -/
def toJSVal : DartVal → Dart JSValue
  | .int n => if 2147483647 < n.toInt ∨ n.toInt < -2147483648 then newInt64 n else newInt32 n
  | .double d => newFloat64 d
  | .string s => newString s
  | .bool b => newBool b
  | .list elems => createJSArray env elems
  | .map entries => createJSObject env entries
  | .otherMap _ => throw (.throws .castError)
  | v => throw (.throws (.notSupported v.runtimeType))

end QuickjsDart
