import QuickjsDart.Codec.Utf
import QuickjsDart.Codec.Binary64

/-!
# Values on the two sides

The values of QuickJS and of Dart, as far as the bridge tells them apart, and the errors Dart code
of the bridge throws.

A QuickJS value is a tag with its payload: numbers and the like are held in place, the others refer
to a cell of the heap. The text of a string never changes, so it is kept with the reference. A
Dart value is given by the test of `typeCheckHelper` that it passes.
-/

namespace QuickjsDart

open Codec

/-- A reference to a heap cell. -/
abbrev Ref := ℕ

/-- A `JSValue` of QuickJS. -/
inductive JSValue where
  | int (n : Int32)
  | float64 (d : Binary64)
  | bool (b : Bool)
  | null
  | undefined
  | uninitialized
  | exception
  | string (r : Ref) (s : Utf16)
  | symbol (r : Ref)
  | bigInt (r : Ref) (n : ℤ)
  | object (r : Ref)
  deriving DecidableEq

/-- The cell a value refers to, for the tags that `JS_VALUE_HAS_REF_COUNT` accepts. -/
def JSValue.ref? : JSValue → Option Ref
  | string r _ => some r
  | symbol r => some r
  | bigInt r _ => some r
  | object r => some r
  | _ => none

/-- A Dart closure of type `DartCHandler`, by identity. -/
abbrev Handler := ℕ

/-- A Dart value. -/
inductive DartVal where
  | null
  | int (n : Int64)
  | double (d : Binary64)
  | bool (b : Bool)
  | string (s : Utf16)
  | list (elems : List DartVal)
  /-- A `Map<String, dynamic>` in its iteration order. Before null safety a key may be `null`. -/
  | map (entries : List (Option Utf16 × DartVal))
  /-- A `Map` that is no `Map<String, dynamic>`. -/
  | otherMap (runtimeType : String)
  | handler (h : Handler)
  | jsValue (v : JSValue)
  | future (id : ℕ)
  | other (runtimeType : String)

/-- A Dart error of the bridge, or one of the user's. -/
inductive DartError where
  | notSupported (runtimeType : String)
  | castError
  | formatException
  | argumentError
  | noSuchMethod
  | funcName
  | noCallback (id : ℤ)
  | quickJS (type : String)
  | user (id : ℕ)
  deriving DecidableEq

/-- How a Dart computation of the bridge ends when it does not return: it throws, or the process
has read through a null pointer. -/
inductive Fault where
  | throws (e : DartError)
  | crash
  deriving DecidableEq

/-- The texts that the bridge throws. -/
def DartError.text : DartError → Option String
  | notSupported runtimeType => some (runtimeType ++ " is not supported")
  | funcName => some "Only String or int for funcName is supported"
  | noCallback id => some ("QuickJS VM had no callback with id " ++ toString id)
  | quickJS type => some ("JSEngine Error # JSValue TypeError, message: type is " ++ type)
  | _ => none

/-- The `runtimeType` of the values that a conversion refuses. -/
def DartVal.runtimeType : DartVal → String
  | null => "Null"
  | int _ => "int"
  | double _ => "double"
  | bool _ => "bool"
  | string _ => "String"
  | list _ => "List<dynamic>"
  | map _ => "_InternalLinkedHashMap<String, dynamic>"
  | otherMap t => t
  | handler _ => "({Pointer<JSContext> context, JSValue thisVal, List<JSValue> args}) => dynamic"
  | jsValue _ => "JSValue"
  | future _ => "Future<dynamic>"
  | other t => t

end QuickjsDart
