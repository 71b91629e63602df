import QuickjsDart.Engine
import QuickjsDart.Number
import QuickjsDart.Codec.Json

/-!
# Values as text

`JS_ToString` and `JS_JSONStringify`, with everything of a script that they call: `toPrimitive`,
`toString`, `valueOf`, `toJSON`, getters and proxies. Text is a list of code points until it becomes
a string.

`js_json_to_str` recurses in C without a check of its stack, so it has a depth, and running out of
it is the end of the process.
-/

namespace QuickjsDart

open Codec

section

variable {α : Type}

/-- Run, and release a value on every way out. -/
def releasing (v : JSValue) (act : JS α) : JS α := fun vm =>
  match act vm with
  | .ok a vm => .ok a (vm.free v)
  | .error e vm => .error e (vm.free v)

end

/-- `JS_FreeValue`. -/
def jsFree (v : JSValue) : JS Unit := fun vm => .ok () (vm.free v)

/-- A new string. -/
def jsNewString (s : Utf16) : JS JSValue := fun vm =>
  .ok (.string vm.heap.length s) (vm.alloc .leaf)

/-- `JS_IsObject`. -/
def JSValue.isObject : JSValue → Bool
  | object _ => true
  | _ => false

/-! ## Strings -/

/-- The names `toString`, `valueOf` and `string`. -/
def toStringName : Utf16 := asciiUnits [0x74, 0x6F, 0x53, 0x74, 0x72, 0x69, 0x6E, 0x67]

/-- The name `valueOf`. -/
def valueOfName : Utf16 := asciiUnits [0x76, 0x61, 0x6C, 0x75, 0x65, 0x4F, 0x66]

/-- The type name of strings. -/
def stringName : Utf16 := asciiUnits [0x73, 0x74, 0x72, 0x69, 0x6E, 0x67]

/-- The words of the language. -/
def trueText : List ℕ := [0x74, 0x72, 0x75, 0x65]

/-- The word `false`. -/
def falseText : List ℕ := [0x66, 0x61, 0x6C, 0x73, 0x65]

/-- The word `null`. -/
def nullText : List ℕ := [0x6E, 0x75, 0x6C, 0x6C]

/-- The word `undefined`. -/
def undefinedText : List ℕ := [0x75, 0x6E, 0x64, 0x65, 0x66, 0x69, 0x6E, 0x65, 0x64]

/-- The text `[unsupported type]`. -/
def unsupportedText : List ℕ :=
  [0x5B, 0x75, 0x6E, 0x73, 0x75, 0x70, 0x70, 0x6F, 0x72, 0x74, 0x65, 0x64, 0x20, 0x74, 0x79, 0x70,
    0x65, 0x5D]

/-- The text of a boolean. -/
def boolText (b : Bool) : List ℕ := if b then trueText else falseText

variable (env : Env)

/-- One turn of the loop in `JS_ToPrimitiveFree`: `none` where it goes on. -/
def tryMethod (v : JSValue) (name : Utf16) : JS (Option JSValue) := do
  let method ← jsGetProperty env v (.name name)
  if isFunction env (← get).heap method then
    let ret ← releasing method (jsCall env method v [])
    if ret.isObject then
      jsFree ret
      pure none
    else pure (some ret)
  else
    jsFree method
    pure none

/-- `JS_ToPrimitive` with `HINT_STRING`. -/
def jsToPrimitive (v : JSValue) : JS JSValue :=
  if v.isObject then do
    let method ← jsGetProperty env v (.symbol symbolToPrimitive)
    if method = .undefined ∨ method = .null then
      match ← tryMethod env v toStringName with
      | some ret => pure ret
      | none =>
        match ← tryMethod env v valueOfName with
        | some ret => pure ret
        | none => throw (.error "toPrimitive")
    else
      let arg ← jsNewString stringName
      let ret ← releasing arg (releasing method (jsCall env method v [arg]))
      if ret.isObject then
        jsFree ret
        throw (.error "toPrimitive")
      else pure ret
  else pure v

/-- `JS_ToStringInternal` of a value that is no object. -/
def primitiveText : JSValue → Except String Utf16
  | .string _ s => .ok s
  | .int n => .ok (asciiUnits (intNumeral n.toInt).write)
  | .float64 d => .ok (asciiUnits (jsDtoa1 d))
  | .bool b => .ok (asciiUnits (boolText b))
  | .null => .ok (asciiUnits nullText)
  | .undefined => .ok (asciiUnits undefinedText)
  | .bigInt _ n => .ok (asciiUnits (intNumeral n).write)
  | .symbol _ => .error "cannot convert symbol to string"
  | .exception => .error "exception"
  | _ => .ok (asciiUnits unsupportedText)

/-- The text of a value that is no object, or its error. -/
def jsPrimitiveText (v : JSValue) : JS Utf16 :=
  match primitiveText v with
  | .ok s => pure s
  | .error message => throw (.error message)

/-- `JS_ToString`. -/
def jsToString (v : JSValue) : JS Utf16 :=
  if v.isObject then do
    let p ← jsToPrimitive env v
    releasing p (jsPrimitiveText p)
  else jsPrimitiveText v

/-! ## JSON -/

/-- `js_object_keys`: the enumerable keys that are strings, array indices first. -/
def Obj.enumKeys (o : Obj) : List PropKey :=
  let keys := (o.props.filter fun p => p.2.flags.enumerable && p.1.text.isSome).map Prod.fst
  (keys.filter fun k => k.arrayIndex.isSome).mergeSort
    (fun k l => k.arrayIndex.getD 0 ≤ l.arrayIndex.getD 0)
    ++ keys.filter fun k => k.arrayIndex.isNone

/-- The first part of `js_json_check`: a `toJSON` is called. -/
def callToJSON (val : JSValue) (key : Utf16) : JS JSValue := do
  let f ← jsGetProperty env val (.name toJSONName)
  if isFunction env (← get).heap f then
    let prop ← jsNewString key
    releasing val (releasing prop (releasing f (jsCall env f val [prop])))
  else
    jsFree f
    pure val

/-- The last part of `js_json_check`: what JSON leaves out is `undefined`. -/
def jsonKeep (val : JSValue) : JS JSValue := do
  match val with
  | .object _ =>
    if isFunction env (← get).heap val then
      jsFree val
      pure .undefined
    else pure val
  | .string _ _ => pure val
  | .int _ => pure val
  | .float64 _ => pure val
  | .bool _ => pure val
  | .null => pure val
  | .bigInt _ _ => pure val
  | .exception => throw (.error "exception")
  | _ =>
    jsFree val
    pure .undefined

/-- `js_json_check` without a replacer. -/
def jsonCheck (val : JSValue) (key : Utf16) : JS JSValue :=
  match val with
  | .object _ => callToJSON env val key >>= jsonKeep env
  | .bigInt _ _ => callToJSON env val key >>= jsonKeep env
  | _ => jsonKeep env val

/-- `JS_IsArray`. -/
def jsIsArray (r : Ref) (o : Obj) : JS Bool :=
  match o.cls with
  | .array _ => pure true
  | .exotic _ => env.isArrayExotic r
  | _ => pure false

/-- `JS_ToLengthFree`. -/
def jsToLength (v : JSValue) : JS ℕ := do
  let n ← match v with
    | .int _ | .float64 _ => pure v
    | _ => releasing v (env.toNumber v)
  match n with
  | .int k => pure k.toInt.toNat
  | .float64 (.inf false) => pure (2 ^ 53 - 1)
  | .float64 d => pure (min d.trunc.toNat (2 ^ 53 - 1))
  | _ => pure 0

/-- The loop over an array's elements from `i` on, with `n` to go. -/
def jsonElems (toStr : JSValue → JS (List ℕ)) (val : JSValue) : ℕ → ℕ → JS (List ℕ)
  | _, 0 => pure [0x5D]
  | i, n + 1 => do
    let v ← jsGetProperty env val (.ofNat i)
    let v ← jsonCheck env v (natText i)
    let text ← toStr (if v = .undefined then .null else v)
    let rest ← jsonElems toStr val (i + 1) n
    pure ((if 0 < i then [0x2C] else []) ++ (text ++ rest))

/-- The loop over an object's keys. -/
def jsonMembers (toStr : JSValue → JS (List ℕ)) (val : JSValue) : Bool → List PropKey → JS (List ℕ)
  | _, [] => pure [0x7D]
  | hasContent, key :: keys => do
    let v ← jsGetProperty env val key
    let v ← jsonCheck env v (key.text.getD [])
    if v = .undefined then jsonMembers toStr val hasContent keys
    else
      let text ← toStr v
      let rest ← jsonMembers toStr val true keys
      pure ((if hasContent then [0x2C] else []) ++
        (Json.quote (key.text.getD []) ++ (0x3A :: (text ++ rest))))

/-- The text of a value that a boxed number converts to. -/
def numberText : JSValue → List ℕ
  | .int n => (intNumeral n.toInt).write
  | .float64 d => jsDtoa1 d
  | _ => []

/-- The keys that `js_json_to_str` writes. -/
def jsonKeys (r : Ref) (o : Obj) : JS (List PropKey) :=
  match o.cls with
  | .exotic _ => do pure ((← env.keysExotic r).map PropKey.ofString)
  | _ => pure o.enumKeys

/-- An array or an object in `js_json_to_str`. -/
def jsonContainer (toStr : JSValue → JS (List ℕ)) (r : Ref) (o : Obj) : JS (List ℕ) := do
  if ← jsIsArray env r o then
    let len ← jsToLength env (← jsGetProperty env (.object r) (.name lengthName))
    let text ← jsonElems env toStr (.object r) 0 len
    pure (0x5B :: text)
  else
    let keys ← jsonKeys env r o
    let text ← jsonMembers env toStr (.object r) false keys
    pure (0x7B :: text)

/-- An object in `js_json_to_str`. -/
def jsonObject (stack : List Ref) (toStr : JSValue → JS (List ℕ)) (r : Ref) (o : Obj) :
    JS (List ℕ) :=
  match o.cls with
  | .boxed (.string _ _) => do
    let s ← jsToString env (.object r)
    pure (Json.quote s)
  | .boxed (.int _) => do
    let n ← env.toNumber (.object r)
    pure (numberText n)
  | .boxed (.float64 _) => do
    let n ← env.toNumber (.object r)
    pure (numberText n)
  | .boxed (.bool b) => pure (boolText b)
  | .boxed (.bigInt _ _) => throw (.error "bigint are forbidden in JSON.stringify")
  | _ =>
    if r ∈ stack then throw (.error "circular reference")
    else jsonContainer env toStr r o

/-- The `switch` of `js_json_to_str`, with the call for what an object holds. -/
def jsonValue (stack : List Ref) (toStr : List Ref → JSValue → JS (List ℕ)) : JSValue → JS (List ℕ)
  | .object r => do
    match (← get).heap.obj? r with
    | none => throw .crash
    | some o => jsonObject env stack (toStr (r :: stack)) r o
  | .string _ s => pure (Json.quote s)
  | .float64 d => pure (if d.isFinite then jsDtoa1 d else nullText)
  | .int n => pure (intNumeral n.toInt).write
  | .bool b => pure (boolText b)
  | .null => pure nullText
  | .bigInt _ _ => throw (.error "bigint are forbidden in JSON.stringify")
  | _ => pure []

/-- `js_json_to_str`, which takes the caller's reference to the value. -/
def jsonToStr : ℕ → List Ref → JSValue → JS (List ℕ)
  | 0, _, _ => throw .crash
  | depth + 1, stack, val => releasing val (jsonValue env stack (jsonToStr depth) val)

/-- `JS_STRING_LEN_MAX`. -/
def stringLenMax : ℕ := 2 ^ 30 - 1

/-- `JS_JSONStringify` without replacer and space. -/
def jsJSONStringify (depth : ℕ) (v : JSValue) : JS JSValue := do
  modify fun vm => vm.dup v
  let val ← jsonCheck env v []
  if val = .undefined then pure .undefined
  else
    let text ← jsonToStr env depth [] val
    if (ofCodePoints text).length ≤ stringLenMax then jsNewString (ofCodePoints text)
    else throw (.error "string too long")

end QuickjsDart
