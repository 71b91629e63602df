import QuickjsDart.Stringify

/-!
# Values read by Dart

`toDartString`, `toJSONString` and `fromJSVal`. Strings cross as C strings; the C function
`toCString` measures what `JS_ToCString` returns without looking whether it is null. Containers
cross as JSON text.
-/

namespace QuickjsDart

open Codec

variable (env : Env)

/-! ## Strings -/

/-- The C function `toCString` and `Utf8Fix.fromUtf8`. Where the conversion to a string raises an
exception the pointer is null, and `strlen` reads it. -/
def toDartString (v : JSValue) : Dart Utf16 := fun vm =>
  match jsToString env v vm with
  | .error _ vm => .error .crash vm
  | .ok s vm =>
    match dartString s with
    | some t => .ok t vm
    | none => .error (.throws .formatException) vm

/-- `JSValueType`, as far as `_getValueType` produces it. -/
inductive JSValueType where
  | number
  | string
  | boolean
  | undefined
  | object
  | function
  | unknown
  deriving DecidableEq

/-- `_getValueType` over `oper_typeof`: `null` is an object, and a symbol, a BigInt and the
exception marker are unknown. -/
def valueType (h : Heap) : JSValue → JSValueType
  | .int _ => .number
  | .float64 _ => .number
  | .undefined => .undefined
  | .bool _ => .boolean
  | .string _ _ => .string
  | .null => .object
  | .object r => if isFunction env h (.object r) then .function else .object
  | .symbol _ => .unknown
  | .bigInt _ _ => .unknown
  | .exception => .unknown
  | .uninitialized => .unknown

/-- `toJSONStringVal`: every error of the body is replaced. -/
def toJSONString (depth : ℕ) (v : JSValue) : Dart Utf16 := fun vm =>
  if valueType env vm.heap v = .unknown then .error (.throws (.quickJS "unknown")) vm
  else
    match (ffi .exception (jsJSONStringify env depth v) >>= toDartString env) vm with
    | .error (.throws _) vm => .error (.throws (.quickJS "unknown")) vm
    | r => r

/-! ## Numbers -/

/-- `JS_ToFloat64` of a number. -/
def toFloat64 : JSValue → Binary64
  | .int n => .ofInt n.toInt
  | .float64 d => d
  | _ => .nan

/-- `JS_ToInt32` of a number: the low 32 bits. -/
def toInt32 : JSValue → Int32
  | .int n => n
  | .float64 d => Int32.ofInt d.trunc
  | _ => 0

/-! ## JSON on the Dart side -/

/-- An entry of a `LinkedHashMap`: a name that is there keeps its place. -/
def putEntry (key : Utf16) (v : DartVal) :
    List (Option Utf16 × DartVal) → List (Option Utf16 × DartVal)
  | [] => [(some key, v)]
  | (k, w) :: rest => if k = some key then (k, v) :: rest else (k, w) :: putEntry key v rest

/-- A number of Dart. -/
def DartVal.ofNum : DartNum → DartVal
  | .int n => .int n
  | .double d => .double d

mutual

/-- The Dart value of a JSON value. -/
def dartOfJson : Json → DartVal
  | .null => .null
  | .bool b => .bool b
  | .num x => .ofNum (jsonNumber x)
  | .str s => .string s
  | .arr elems => .list (dartOfElems elems)
  | .obj members => .map (dartOfMembers [] members)

/-- Element by element. -/
def dartOfElems : List Json → List DartVal
  | [] => []
  | j :: js => dartOfJson j :: dartOfElems js

/-- The members of an object are put one after the other. -/
def dartOfMembers (entries : List (Option Utf16 × DartVal)) :
    List (Utf16 × Json) → List (Option Utf16 × DartVal)
  | [] => entries
  | (key, j) :: rest => dartOfMembers (putEntry key (dartOfJson j) entries) rest

end

/-- dart:convert's `jsonDecode`. -/
def jsonDecode (s : Utf16) : Dart DartVal :=
  match Json.parse (codePoints s) with
  | some j => pure (dartOfJson j)
  | none => throw (.throws .formatException)

/-! ## `fromJSVal` -/

/-- `isArray`, whose exception counts as true. -/
def isArray (v : JSValue) : Dart Bool := fun vm =>
  match v with
  | .object r =>
    match vm.heap.obj? r with
    | some o => ffi true (jsIsArray env r o) vm
    | none => .error .crash vm
  | _ => .ok false vm

/-- `JSEngine.fromJSVal`. -/
def fromJSVal (depth : ℕ) (v : JSValue) : Dart DartVal := fun vm =>
  match valueType env vm.heap v with
  | .number =>
    if (toFloat64 v).isInt then .ok (.int (Int64.ofInt (toInt32 v).toInt)) vm
    else .ok (.double (toFloat64 v)) vm
  | .string => (toDartString env v >>= fun s => pure (.string s)) vm
  | .undefined => .ok .null vm
  | .boolean => .ok (.bool (v == .bool true)) vm
  | .object =>
    (do
      if (← isArray env v) || v.isObject then jsonDecode (← toJSONString env depth v)
      else pure (.jsValue v)) vm
  | .function => .ok (.jsValue v) vm
  | .unknown => .ok (.jsValue v) vm

end QuickjsDart
