import QuickjsDart.Arguments
import QuickjsDart.Read

/-!
# The wrapper of a `DartCallback`

`wrapperFunc` calls the handler of the user and makes a pointer of what it returns. What throws on
the way throws out of `callBackWrapper`, where C gets a null pointer and reads it. `Returnable` says
from which results the wrapper makes a pointer (`callBackWrapper_returns_iff`); for lists and maps
that is decided by their members at every depth (`DartVal.isConvertible`).
-/

namespace QuickjsDart

open Codec

/-! ## Values that `toJSVal` accepts -/

mutual

/-- `createJSArray` and `createJSObject` take the value as a member; a handler needs a name. -/
def DartVal.isMember (named : Bool) : DartVal → Bool
  | .int _ => true
  | .double _ => true
  | .string _ => true
  | .bool _ => true
  | .list elems => allMembers elems
  | .map entries => allEntries entries
  | .handler _ => named
  | _ => false

/-- Every element of a list is taken as a member. -/
def allMembers : List DartVal → Bool
  | [] => true
  | x :: xs => x.isMember true && allMembers xs

/-- Every value of a map is taken as a member. Under a key that is no string it has no name. -/
def allEntries : List (Option Utf16 × DartVal) → Bool
  | [] => true
  | (key, x) :: rest => x.isMember key.isSome && allEntries rest

end

/-- `toJSVal` takes the value. -/
def DartVal.isConvertible : DartVal → Bool
  | .int _ => true
  | .double _ => true
  | .string _ => true
  | .bool _ => true
  | .list elems => allMembers elems
  | .map entries => allEntries entries
  | _ => false

/-- Where the process survives, the computation returns if the Boolean holds and throws if not. -/
def Decides {α : Type} (b : Bool) (act : Dart α) : Prop :=
  ∀ vm, match act vm with
    | .ok _ _ => b = true
    | .error (.throws _) _ => b = false
    | .error .crash _ => True

section

variable {α β : Type} {b c : Bool}

/-- A value at hand. -/
theorem decides_pure (a : α) : Decides true (pure a) := fun _ => rfl

/-- A Dart error. -/
theorem decides_throw (e : DartError) : Decides false (throw (.throws e) : Dart α) := fun _ => rfl

/-- A call from Dart into C throws no Dart error. -/
theorem decides_ffi (dflt : α) (op : JS α) : Decides true (ffi dflt op) := by
  intro vm
  cases hrun : ffi dflt op vm with
  | ok a vm' => exact rfl
  | error e vm' =>
    cases ffi_error hrun
    exact trivial

/-- A computation that always returns. -/
theorem decides_of_ok {act : Dart α} (h : ∀ vm, ∃ a vm', act vm = .ok a vm') :
    Decides true act := by
  intro vm
  obtain ⟨a, vm', hrun⟩ := h vm
  rw [hrun]

/-- A new cell. -/
theorem decides_newCell (mk : Ref → JSValue) (body : Body) : Decides true (newCell mk body) :=
  fun _ => rfl

/-- One part after the other: both have to go through. -/
theorem Decides.bind {x : Dart α} {f : α → Dart β} (hx : Decides b x) (hf : ∀ a, Decides c (f a)) :
    Decides (b && c) (x >>= f) := by
  intro vm
  have h := hx vm
  cases hrun : x vm with
  | ok a vm₁ =>
    rw [hrun] at h
    rw [bind_of_ok hrun, show b = true from h, Bool.true_and]
    exact hf a vm₁
  | error e vm₁ =>
    rw [hrun] at h
    rw [bind_of_error hrun]
    cases e with
    | crash => exact trivial
    | throws d =>
      show (b && c) = false
      rw [show b = false from h, Bool.false_and]

/-- A first part that does not throw. -/
theorem Decides.after {x : Dart α} {f : α → Dart β} (hx : Decides true x)
    (hf : ∀ a, Decides c (f a)) :
    Decides c (x >>= f) := by
  have h := hx.bind hf
  rwa [Bool.true_and] at h

/-- Where the process survives, the computation returns exactly if it is decided so. -/
theorem Decides.ok_iff {act : Dart α} (h : Decides b act) {vm : VM}
    (hcrash : ∀ vm', act vm ≠ .error .crash vm') : (∃ a vm', act vm = .ok a vm') ↔ b = true := by
  have hb := h vm
  cases hrun : act vm with
  | ok a vm' =>
    rw [hrun] at hb
    exact iff_of_true ⟨a, vm', rfl⟩ hb
  | error e vm' =>
    rw [hrun] at hb
    cases e with
    | crash => exact absurd hrun (hcrash vm')
    | throws d =>
      refine iff_of_false ?_ (by rw [show b = false from hb]; exact Bool.false_ne_true)
      rintro ⟨a, vm'', h⟩
      cases h

end

variable (env : Env)

/-- The handle of a name. -/
theorem decides_handle (name : PropName) : Decides true name.handle := by
  cases name with
  | int n => exact decides_pure _
  | string s => exact decides_newCell (fun r => .string r (ffiString s)) .leaf
  | null => exact decides_newCell (fun r => .string r (ffiString nullName)) .leaf

/-- An assignment throws no Dart error, whatever becomes of it. -/
theorem decides_setProperty (this : JSValue) (name : PropName) (v : JSValue) (throwFlag : Bool) :
    Decides true (setProperty env this name v throwFlag) :=
  (decides_handle name).after fun _ => decides_ffi _ _

/-- A function needs a name. -/
theorem decides_createNewFunction (name : PropName) (h : Handler) (this : JSValue) :
    Decides (name != .null) (createNewFunction env name h (some this)) := by
  unfold createNewFunction
  by_cases hname : name = .null
  · rw [if_pos hname, hname]
    exact decides_throw _
  · rw [if_neg hname, bne_iff_ne.2 hname]
    dsimp only
    exact (decides_handle name).after fun _ =>
      (decides_of_ok fun _ => ⟨_, _, rfl⟩).after fun _ => decides_ffi _ _

/-- A value that is made, then stored. -/
theorem decides_store {b : Bool} {mk : Dart JSValue} (hmk : Decides b mk) (target : JSValue)
    (name : PropName) : Decides b (mk >>= fun v => setProperty env target name v true) := by
  have h := hmk.bind fun v => decides_setProperty env target name v true
  rwa [Bool.and_true] at h

mutual

/-- A list goes through where its elements do. -/
theorem decides_createJSArray (elems : List DartVal) :
    Decides (allMembers elems) (createJSArray env elems) := by
  rw [createJSArray]
  refine (decides_newCell _ _).after fun v => ?_
  have h := (decides_setElements v 0 elems).bind fun _ => decides_pure v
  rwa [Bool.and_true] at h

/-- The loop over the elements. The first that is not taken throws. -/
theorem decides_setElements (target : JSValue) (i : ℕ) (elems : List DartVal) :
    Decides (allMembers elems) (setElements env target i elems) := by
  cases elems with
  | nil =>
    rw [setElements, allMembers]
    exact decides_pure _
  | cons x xs =>
    rw [setElements, allMembers]
    exact (decides_setMember target (.int (Int64.ofNat i)) x).bind fun _ =>
      decides_setElements target (i + 1) xs

/-- A map goes through where its values do. -/
theorem decides_createJSObject (entries : List (Option Utf16 × DartVal)) :
    Decides (allEntries entries) (createJSObject env entries) := by
  rw [createJSObject]
  refine (decides_newCell _ _).after fun v => ?_
  have h := (decides_setEntries v entries).bind fun _ => decides_pure v
  rwa [Bool.and_true] at h

/-- The loop over the entries. The first that is not taken throws. -/
theorem decides_setEntries (target : JSValue) (entries : List (Option Utf16 × DartVal)) :
    Decides (allEntries entries) (setEntries env target entries) := by
  cases entries with
  | nil =>
    rw [setEntries, allEntries]
    exact decides_pure _
  | cons p rest =>
    obtain ⟨key, x⟩ := p
    have hname : (key.elim PropName.null PropName.string != .null) = key.isSome := by
      cases key <;> rfl
    rw [setEntries, allEntries, ← hname]
    exact (decides_setMember target _ x).bind fun _ => decides_setEntries target rest

/-- A member, by the type tests of `setElements` and `setEntries`. -/
theorem decides_setMember (target : JSValue) (name : PropName) (x : DartVal) :
    Decides (x.isMember (name != .null)) (setMember env target name x) := by
  cases x with
  | int n => rw [setMember, DartVal.isMember]; exact decides_store env (decides_pure _) target name
  | string s =>
    rw [setMember, DartVal.isMember]
    exact decides_store env (decides_newCell _ _) target name
  | bool b => rw [setMember, DartVal.isMember]; exact decides_store env (decides_pure _) target name
  | double d => rw [setMember, DartVal.isMember]; exact decides_pure _
  | list elems =>
    rw [setMember, DartVal.isMember]
    exact decides_store env (decides_createJSArray elems) target name
  | map entries =>
    rw [setMember, DartVal.isMember]
    exact decides_store env (decides_createJSObject entries) target name
  | otherMap t => simp only [setMember, DartVal.isMember]; exact decides_throw _
  | handler h =>
    rw [setMember, DartVal.isMember]
    exact decides_createNewFunction env name h target
  | _ => simp only [setMember, DartVal.isMember]; exact decides_throw _

end

/-- `toJSVal` throws on the values that it does not take, and on no others. -/
theorem decides_toJSVal (x : DartVal) : Decides x.isConvertible (toJSVal env x) := by
  cases x with
  | int n => rw [toJSVal]; split_ifs <;> exact decides_pure _
  | double d => rw [toJSVal]; exact decides_pure _
  | string s => rw [toJSVal]; exact decides_newCell _ _
  | bool b => rw [toJSVal]; exact decides_pure _
  | list elems => rw [toJSVal]; exact decides_createJSArray env elems
  | map entries => rw [toJSVal]; exact decides_createJSObject env entries
  | _ => simp only [toJSVal]; exact decides_throw _

/-! ## The wrapper -/

/-- `JSEngine.globalPromise`. -/
def globalPromise : Dart JSValue := do
  let global ← globalHandle
  getProperty env global promiseGetterName

/-- `then` and `catchError` on a future that a handler returned: the callbacks will run later, on
the holder. -/
def awaitFuture (future : ℕ) (newPromise : JSValue) : Dart Unit := fun vm =>
  match newPromise with
  | .object holder => .ok () { vm with calls := vm.calls ++ [⟨future, holder, none, 0, 0, 0, 0⟩] }
  | _ => .ok () vm

/-- `DartCallback.wrapperFunc`, with the call of the user's handler. -/
def wrapperFunc (handler : Dart DartVal) : Dart JSValue := do
  let handlerResult ← handler
  match handlerResult with
  | .null => newUndefined
  | .jsValue v => dupHandle v
  | .future future => do
    let newPromise ← callJS env (← globalPromise env) none
    awaitFuture future newPromise
    getProperty env newPromise promiseName
  | x => toJSVal env x

/-- The wrapper makes a pointer of the result. For a future it calls `__promise__getter`. -/
def Returnable (r : DartVal) (vm : VM) : Prop :=
  match r with
  | .null => True
  | .jsValue _ => True
  | .future _ => ∃ f vm', globalPromise env vm = .ok f vm' ∧ isFunction env vm'.heap f = true
  | x => x.isConvertible = true

section

variable {env}

/-- A function is called with `null` as `this`. -/
theorem callJS_eq_ffi {vm : VM} {f : JSValue} (hf : isFunction env vm.heap f = true)
    (params : Option (List JSValue)) :
    callJS env f params vm = ffi .exception (jsCall env f .null (params.getD [])) vm := by
  unfold callJS
  rw [if_pos hf]

/-- A future, where the process survives. -/
theorem future_returns_iff {future : ℕ} {vm : VM}
    (hcrash : ∀ vm', wrapperFunc env (pure (.future future)) vm ≠ .error .crash vm') :
    (∃ v vm', wrapperFunc env (pure (.future future)) vm = .ok v vm') ↔
      Returnable env (.future future) vm := by
  have heq : wrapperFunc env (pure (.future future)) = (globalPromise env >>= fun f =>
      callJS env f none >>= fun newPromise => awaitFuture future newPromise >>= fun _ =>
        getProperty env newPromise promiseName) := rfl
  rw [heq] at hcrash ⊢
  have hget : Decides true (globalPromise env) :=
    (decides_of_ok fun _ => ⟨_, _, rfl⟩).after fun _ => decides_ffi _ _
  have hrest : ∀ newPromise : JSValue, Decides true (awaitFuture future newPromise >>= fun _ =>
      getProperty env newPromise promiseName) := fun newPromise =>
    (decides_of_ok fun vm => by cases newPromise <;> exact ⟨_, _, rfl⟩).after
      fun _ => decides_ffi _ _
  unfold Returnable
  dsimp only
  cases hrun : globalPromise env vm with
  | error e vm₁ =>
    have h := hget vm
    rw [hrun] at h
    cases e with
    | throws d => cases h
    | crash => exact absurd (bind_of_error hrun) (hcrash vm₁)
  | ok f vm₁ =>
    simp only [bind_of_ok hrun] at hcrash ⊢
    cases hf : isFunction env vm₁.heap f with
    | false =>
      have hthrow : callJS env f none vm₁ = .error (.throws (.quickJS "not Function")) vm₁ := by
        unfold callJS
        rw [hf]
        rfl
      refine iff_of_false ?_ ?_
      · rintro ⟨v, vm', h⟩
        rw [bind_of_error hthrow] at h
        cases h
      · rintro ⟨f', vm', heq, hf'⟩
        cases heq
        rw [hf] at hf'
        cases hf'
    | true =>
      refine iff_of_true ?_ ⟨f, vm₁, rfl, hf⟩
      have hcall := callJS_eq_ffi hf none
      cases hc : callJS env f none vm₁ with
      | error e vm₂ =>
        rw [hcall] at hc
        cases ffi_error hc
        exact absurd (bind_of_error (hcall.trans hc)) (hcrash vm₂)
      | ok newPromise vm₂ =>
        simp only [bind_of_ok hc] at hcrash ⊢
        exact ((hrest newPromise).ok_iff hcrash).2 rfl

/-- What the wrapper does once the handler has returned. -/
theorem wrapperFunc_of_ok {handler : Dart DartVal} {vm vm₁ : VM} {r : DartVal}
    (h : handler vm = .ok r vm₁) : wrapperFunc env handler vm = wrapperFunc env (pure r) vm₁ := by
  unfold wrapperFunc
  rw [bind_of_ok h]
  rfl

/-- A result that is converted. -/
theorem convert_returns_iff {x : DartVal} {vm : VM} (heq : wrapperFunc env (pure x) = toJSVal env x)
    (hret : Returnable env x vm ↔ x.isConvertible = true)
    (hcrash : ∀ vm', wrapperFunc env (pure x) vm ≠ .error .crash vm') :
    (∃ v vm', wrapperFunc env (pure x) vm = .ok v vm') ↔ Returnable env x vm := by
  rw [heq] at hcrash ⊢
  exact ((decides_toJSVal env x).ok_iff hcrash).trans hret.symm

/-- The wrapper of a result, where the process survives. -/
theorem wrapperFunc_pure_returns_iff {r : DartVal} {vm : VM}
    (hcrash : ∀ vm', wrapperFunc env (pure r) vm ≠ .error .crash vm') :
    (∃ v vm', wrapperFunc env (pure r) vm = .ok v vm') ↔ Returnable env r vm := by
  cases r with
  | null => exact iff_of_true ⟨_, _, rfl⟩ trivial
  | jsValue v => exact iff_of_true ⟨_, _, rfl⟩ trivial
  | future f => exact future_returns_iff hcrash
  | _ => exact convert_returns_iff rfl Iff.rfl hcrash

/-- **The pointer.** For a handler that was registered with a `DartCallback`, and unless the process
ends before, `callBackWrapper` returns a pointer exactly where the handler returns something that
the wrapper can return. -/
theorem callBackWrapper_returns_iff {vm : VM} {this data : JSValue} {args : List JSValue}
    {h : Handler} {user : Dart DartVal} (hfind : findHandler vm data = .ok h)
    (hwrap : env.handler h this (handlerArgs args) = wrapperFunc env user)
    (hcrash : ∀ vm', callBackWrapper env this args data vm ≠ .error .crash vm') :
    (∃ v vm', callBackWrapper env this args data vm = .ok v vm') ↔
      ∃ r vm₁, user vm = .ok r vm₁ ∧ Returnable env r vm₁ := by
  have heq : callBackWrapper env this args data vm = wrapperFunc env user vm := by
    unfold callBackWrapper
    rw [hfind]
    exact congrFun hwrap vm
  rw [heq] at hcrash ⊢
  cases hrun : user vm with
  | error e vm₁ =>
    have herr : wrapperFunc env user vm = .error e vm₁ := bind_of_error hrun
    refine iff_of_false ?_ ?_
    · rintro ⟨v, vm', h⟩
      rw [herr] at h
      cases h
    · rintro ⟨r, vm', h, -⟩
      cases h
  | ok r vm₁ =>
    rw [wrapperFunc_of_ok hrun] at hcrash ⊢
    rw [wrapperFunc_pure_returns_iff hcrash]
    constructor
    · intro hr
      exact ⟨r, vm₁, rfl, hr⟩
    · rintro ⟨r', vm', heq, hr⟩
      cases heq
      exact hr

end

/-- An environment whose handlers return `null`. -/
def nullEnv : Env where
  __ := Env.bare
  handler _ _ _ := newUndefined

/-- A handler that returns null returns. -/
theorem callBackWrapper_returns_null :
    ∃ v vm', callBackWrapper nullEnv .undefined [.int 1] (intValue 1) hookVM = .ok v vm' := by
  have hfind : findHandler hookVM (intValue 1) = .ok 0 := rfl
  have hwrap :
      nullEnv.handler 0 .undefined (handlerArgs [.int 1]) = wrapperFunc nullEnv (pure .null) :=
    rfl
  refine (callBackWrapper_returns_iff hfind hwrap fun vm' h => ?_).2 ⟨.null, hookVM, rfl, trivial⟩
  cases h

/-! ## The console -/

/-- The handler of `__console_write`, without the line that it logs. -/
def consoleWrite (depth : ℕ) : Option (List JSValue) → Dart DartVal
  | none => throw (.throws .noSuchMethod)
  | some [] => throw (.throws .argumentError)
  | some (first :: rest) => do
    match ← fromJSVal env depth first with
    | .string _ => pure ()
    | .null => pure ()
    | _ => throw (.throws .castError)
    for element in rest do
      let _ ← toJSONString env depth element
    pure .null

/-- An environment with the console as its handler. -/
def consoleEnv : Env where
  __ := Env.bare
  handler _ _ args := wrapperFunc Env.bare (consoleWrite Env.bare 8 args)

/-- `__console_write()` is called with `null` for its arguments, and takes its length. -/
theorem console_without_arguments :
    callBackWrapper consoleEnv .undefined [] (intValue 1) hookVM
        = .error (.throws .noSuchMethod) hookVM ∧
      jsCall consoleEnv (.object 9) .undefined [] hookVM = .error .crash hookVM :=
  ⟨rfl, rfl⟩

end QuickjsDart
