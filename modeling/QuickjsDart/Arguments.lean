import QuickjsDart.Engine
import QuickjsDart.Memory.Array

/-!
# Argument vectors

How the arguments of a call go through native memory. A handle is the address of a `JSValue`.
`paramsExecutor` stores the addresses of the handles in an array and returns it in a map, three call
sites take it from there, and a loop in C copies the values that the addresses point at. On the
other side `callBackWrapper` makes handles of the elements of such a vector.

`callJS` and `callBackWrapper` of the layer below have only the values (`handCallJS_run`,
`deliver_run`).
-/

namespace QuickjsDart

open Codec Memory

/-! ## Native memory -/

/-- Native memory: the pointers and the values at an address, and the address at which the next
allocation starts. Nothing is at the null pointer. -/
structure Native where
  pointers : ℕ → Option ℕ
  values : ℕ → Option JSValue
  free : ℕ
  pointers_null : pointers 0 = none
  values_lt : ∀ {a v}, values a = some v → a < free
  free_pos : 0 < free

/-- The size of a pointer. -/
def pointerSize : ℕ := 8

/-- The size of a `JSValue`. -/
def valueSize : ℕ := 16

namespace Native

/-- Allocate an array of pointers and fill it. -/
def storePointers (mem : Native) (ps : List ℕ) : Native where
  pointers := putArray pointerSize mem.free ps mem.pointers
  values := mem.values
  free := mem.free + pointerSize * ps.length
  pointers_null := by rw [putArray_of_lt _ _ _ mem.free_pos, mem.pointers_null]
  values_lt h := Nat.lt_add_right _ (mem.values_lt h)
  free_pos := Nat.add_pos_left mem.free_pos _

/-- Allocate an array of values and fill it. -/
def storeValues (mem : Native) (vs : List JSValue) : Native where
  pointers := mem.pointers
  values := putArray valueSize mem.free vs mem.values
  free := mem.free + valueSize * vs.length
  pointers_null := mem.pointers_null
  values_lt {a v} h := by
    by_contra hle
    have hge := Nat.le_of_not_lt hle
    rw [putArray_of_le (by decide) _ _ hge] at h
    exact absurd (mem.values_lt h) (Nat.not_lt_of_le (Nat.le_trans (Nat.le_add_right _ _) hge))
  free_pos := Nat.add_pos_left mem.free_pos _

end Native

/-! ## From Dart to C -/

/-- What the map of `paramsExecutor` holds. -/
inductive Dynamic where
  | int (n : ℤ)
  | pointer (a : ℕ)

/-- `paramsExecutor`, on the addresses of the handles. -/
def paramsExecutor (params : Option (List ℕ)) (mem : Native) : List (String × Dynamic) × Native :=
  match params with
  | some addressArray =>
    ([("length", .int addressArray.length), ("data", .pointer mem.free)],
      mem.storePointers addressArray)
  | none => ([("length", .int 0), ("data", .pointer mem.free)], mem.storePointers [])

/-- `as int`, which lets `null` pass. -/
def asInt : Option Dynamic → Except DartError (Option ℤ)
  | none => .ok none
  | some (.int n) => .ok (some n)
  | some (.pointer _) => .error .castError

/-- `as Pointer<Pointer>`, which lets `null` pass. -/
def asPointer : Option Dynamic → Except DartError (Option ℕ)
  | none => .ok none
  | some (.pointer a) => .ok (some a)
  | some (.int _) => .error .castError

/-- What `dart:ffi` does with a `null` argument for a pointer: it throws an `ArgumentError`, or, in
its early versions, passes the null pointer. -/
inductive NullArgument where
  | throws
  | passes
  deriving DecidableEq

/-- A pointer argument of a native call. -/
def pointerArg (nulls : NullArgument) : Option ℕ → Except DartError ℕ
  | some a => .ok a
  | none =>
    match nulls with
    | .throws => .error .argumentError
    | .passes => .ok 0

/-- An `Int32` argument of a native call. -/
def int32Arg : Option ℤ → Except DartError Int32
  | some n => .ok (Int32.ofInt n)
  | none => .error .argumentError

/-- The function of QuickJS that a call ends in. -/
inductive Target where
  /-- `JS_Call`. -/
  | call (f this : JSValue)
  /-- `JS_Invoke`. -/
  | invoke (this : JSValue) (key : PropKey)

/-- What the bridge hands to QuickJS: `argv` is the address of a vector of values. -/
structure Handover where
  target : Target
  argc : Int32
  argv : ℕ

/-- The loop that `dart_call_js`, `call` and `invoke` share: `argv[i] = *(argv_ptrs[i])`. A length
below zero or an address with nothing at it is undefined behaviour. -/
def copyArgv (target : Target) (argc : Int32) (argvPtrs : ℕ) (mem : Native) :
    Except Fault (Handover × Native) :=
  if argc.toInt < 0 then .error .crash
  else
    match (getArray pointerSize mem.pointers argvPtrs argc.toInt.toNat).bind fun ps =>
        ps.mapM mem.values with
    | some vs => .ok (⟨target, argc, mem.free⟩, mem.storeValues vs)
    | none => .error .crash

/-- The C function `dart_call_js`. -/
def dartCallJs (f this : JSValue) : Int32 → ℕ → Native → Except Fault (Handover × Native) :=
  copyArgv (.call f this)

/-- The C function `call`. -/
def call (f this : JSValue) : Int32 → ℕ → Native → Except Fault (Handover × Native) :=
  copyArgv (.call f this)

/-- The C function `invoke`. -/
def invoke (this : JSValue) (key : PropKey) :
    Int32 → ℕ → Native → Except Fault (Handover × Native) :=
  copyArgv (.invoke this key)

/-- A call site: the entries of the map it reads become the arguments of a native function. -/
def passParams (nulls : NullArgument) (lengthKey dataKey : String) (params : Option (List ℕ))
    (mem : Native) (native : Int32 → ℕ → Native → Except Fault (Handover × Native)) :
    Except Fault (Handover × Native) := do
  let (paramsExecuted, mem) := paramsExecutor params mem
  let length ← (asInt (paramsExecuted.lookup lengthKey)).mapError .throws
  let data ← (asPointer (paramsExecuted.lookup dataKey)).mapError .throws
  let argc ← (int32Arg length).mapError .throws
  let argv ← (pointerArg nulls data).mapError .throws
  native argc argv mem

/-- A `catch` that throws the same error for each. -/
def rethrow {α : Type} (e : DartError) : Except Fault α → Except Fault α
  | .error (.throws _) => .error (.throws e)
  | r => r

variable (env : Env) (nulls : NullArgument)

/-- `JSEngine.callFunction`, up to the call. -/
def handCallFunction (f this : JSValue) (args : Option (List ℕ)) (mem : Native) :
    Dart (Handover × Native) := fun vm =>
  match passParams nulls "length" "value" args mem (call f this) with
  | .ok r => .ok r vm
  | .error e => .error e vm

/-- `JSValue.callJS`, up to the call. -/
def handCallJS (f : JSValue) (params : Option (List ℕ)) (mem : Native) :
    Dart (Handover × Native) := fun vm =>
  if isFunction env vm.heap f then
    match rethrow (.quickJS "not Function")
        (passParams nulls "length" "data" params mem (dartCallJs f .null)) with
    | .ok r => .ok r vm
    | .error e => .error e vm
  else .error (.throws (.quickJS "not Function")) vm

/-- `JSValue.invokeObject`, up to the call. -/
def handInvokeObject (this : JSValue) (propName : Utf16) (params : Option (List ℕ)) (mem : Native) :
    Dart (Handover × Native) := fun vm =>
  match getProperty env this propName vm with
  | .error .crash vm => .error .crash vm
  | .error (.throws _) vm => .error (.throws (.quickJS "not Function")) vm
  | .ok f vm =>
    if isFunction env vm.heap f then
      match rethrow (.quickJS "not Function") (passParams nulls "length" "data" params mem
          (invoke this (.ofString (ffiString propName)))) with
      | .ok r => .ok r vm
      | .error e => .error e vm
    else .error (.throws (.quickJS "not Function")) vm

/-- What QuickJS does with what it is handed. -/
def Handover.run (h : Handover) (mem : Native) : JS JSValue :=
  match getArray valueSize mem.values h.argv h.argc.toInt.toNat with
  | none => throw .crash
  | some vs =>
    match h.target with
    | .call f this => jsCall env f this vs
    | .invoke this key => do
      let f ← jsGetProperty env this key
      jsCall env f this vs

/-! ## From C to Dart -/

/-- What a handler is called with; the arguments are handles. -/
structure Delivery where
  handler : Handler
  this : JSValue
  args : Option (List ℕ)

/-- The list that `callBackWrapper` makes of a vector: `getJSValueConstPointer` is the address of an
element, and a vector of one element is a handle itself. -/
def callBackArgs (argc : Int32) (argv : ℕ) : Option (List ℕ) :=
  if 1 < argc.toInt then some ((List.range argc.toInt.toNat).map fun i => argv + valueSize * i)
  else if argc = 1 then some [argv]
  else none

/-- `JS_Call` on a function object of `installDartHook`: `js_c_function_data_call` passes the vector
on, since the function's `length` is zero, and `callBackWrapper` looks the handler up. -/
def deliver (vm : VM) (h : Handover) : Option Delivery :=
  match h.target with
  | .call (.object r) this =>
    match vm.heap.obj? r with
    | some o =>
      match o.cls with
      | .function (.dart data) =>
        match findHandler vm data with
        | .ok handler => some ⟨handler, this, callBackArgs h.argc h.argv⟩
        | .error _ => none
      | _ => none
    | none => none
  | _ => none

/-- The vector handed over has the values of the parameters in their order. -/
def PassesArgs (ps : List ℕ) (mem : Native) (h : Handover) (mem' : Native) : Prop :=
  h.argc.toInt = ps.length ∧
    ∀ i a, ps[i]? = some a → mem'.values (h.argv + valueSize * i) = mem.values a

/-- A hook with its handler. -/
def Hook (vm : VM) (r : Ref) (handler : Handler) : Prop :=
  ∃ o data,
    vm.heap.obj? r = some o ∧ o.cls = .function (.dart data) ∧ findHandler vm data = .ok handler

/-- The handler is called with a list of the parameters' values. -/
def Receives (ps : List ℕ) (mem : Native) (vm : VM) (r : Ref) (handler : Handler) : Prop :=
  ∃ h mem' d hs, handCallJS env nulls (.object r) (some ps) mem vm = .ok (h, mem') vm ∧
    deliver vm h = some d ∧ d.handler = handler ∧ d.args = some hs ∧ hs.length = ps.length ∧
    ∀ (i a : ℕ), ps[i]? = some a → ∃ b, hs[i]? = some b ∧ mem'.values b = mem.values a

/-- The handler is called without a list. -/
def ReceivesNull (ps : List ℕ) (mem : Native) (vm : VM) (r : Ref) (handler : Handler) : Prop :=
  ∃ h mem' d, handCallJS env nulls (.object r) (some ps) mem vm = .ok (h, mem') vm ∧
    deliver vm h = some d ∧ d.handler = handler ∧ d.args = none

/-- The handles point at values. -/
def Live (mem : Native) (ps : List ℕ) : Prop := ∀ a ∈ ps, ∃ v, mem.values a = some v

section

variable {env nulls}

/-! ## The copy -/

/-- Live handles have values. -/
theorem Live.mapM {mem : Native} {ps : List ℕ} (h : Live mem ps) :
    ∃ vs, ps.mapM mem.values = some vs := by
  induction ps with
  | nil => exact ⟨[], rfl⟩
  | cons a ps ih =>
    obtain ⟨v, hv⟩ := h a List.mem_cons_self
    obtain ⟨vs, hvs⟩ := ih fun b hb => h b (List.mem_cons_of_mem _ hb)
    refine ⟨v :: vs, ?_⟩
    rw [List.mapM_cons, hv, hvs]
    rfl

/-- The values that handles point at, one by one. -/
theorem getElem?_of_mapM {mem : Native} {ps : List ℕ} {vs : List JSValue}
    (h : ps.mapM mem.values = some vs) :
    vs.length = ps.length ∧ ∀ (i a : ℕ), ps[i]? = some a → vs[i]? = mem.values a := by
  induction ps generalizing vs with
  | nil =>
    cases h
    exact ⟨rfl, fun i a hi => by cases hi⟩
  | cons a ps ih =>
    rw [List.mapM_cons] at h
    obtain ⟨v, hv, h⟩ := Option.bind_eq_some_iff.1 h
    obtain ⟨vs, hvs, h⟩ := Option.bind_eq_some_iff.1 h
    cases h
    obtain ⟨hlen, hget⟩ := ih hvs
    refine ⟨by rw [List.length_cons, List.length_cons, hlen], fun i b hi => ?_⟩
    cases i with
    | zero =>
      cases hi
      exact hv.symm
    | succ i => exact hget i b hi

/-- Addresses that can be read are live. -/
theorem live_of_mapM {mem : Native} {ps : List ℕ} {vs : List JSValue}
    (h : ps.mapM mem.values = some vs) : Live mem ps := by
  intro a ha
  obtain ⟨i, hi⟩ := List.getElem?_of_mem ha
  obtain ⟨hlen, hget⟩ := getElem?_of_mapM h
  have hlt : i < vs.length := by
    rw [hlen]
    exact (List.getElem?_eq_some_iff.1 hi).1
  exact ⟨vs[i], by rw [← hget i a hi, List.getElem?_eq_getElem hlt]⟩

/-- What is stored leaves other values alone. -/
theorem storeValues_kept (mem : Native) (vs : List JSValue) {a : ℕ} {v : JSValue}
    (h : mem.values a = some v) : (mem.storeValues vs).values a = some v := by
  show putArray valueSize mem.free vs mem.values a = some v
  rw [putArray_of_lt _ _ _ (mem.values_lt h), h]

/-- One value is stored at the first free address. -/
theorem storeValues_singleton (mem : Native) (v : JSValue) :
    (mem.storeValues [v]).values mem.free = some v := by
  show putArray valueSize mem.free [v] mem.values mem.free = some v
  rw [putArray, putArray, Function.update_self]

/-- The call sites that read the key `data` pass the array. -/
theorem passParams_data (params : Option (List ℕ)) (mem : Native)
    (native : Int32 → ℕ → Native → Except Fault (Handover × Native)) :
    passParams nulls "length" "data" params mem native
      = native (Int32.ofInt (params.getD []).length) mem.free
          (mem.storePointers (params.getD [])) := by
  cases params <;> rfl

/-- A key that the map does not have is `null`. -/
theorem passParams_value (params : Option (List ℕ)) (mem : Native)
    (native : Int32 → ℕ → Native → Except Fault (Handover × Native)) :
    passParams nulls "length" "value" params mem native
      = match nulls with
        | .throws => .error (.throws .argumentError)
        | .passes =>
          native (Int32.ofInt (params.getD []).length) 0 (mem.storePointers (params.getD [])) := by
  cases params <;> cases nulls <;> rfl

/-- A length below 2^31 is an `int`. -/
theorem toInt_ofInt_length {n : ℕ} (hn : n < 2 ^ 31) : (Int32.ofInt n).toInt = n :=
  Int32.toInt_ofInt_of_le (by omega) (by omega)

/-- The copy of an array of live handles. -/
theorem copyArgv_storePointers (target : Target) {mem : Native} {ps : List ℕ} (hlive : Live mem ps)
    (hlen : ps.length < 2 ^ 31) :
    ∃ h mem',
      copyArgv target (Int32.ofInt ps.length) mem.free (mem.storePointers ps) = .ok (h, mem') ∧
      h.target = target ∧ PassesArgs ps mem h mem' := by
  obtain ⟨vs, hvs⟩ := hlive.mapM
  obtain ⟨hlenvs, hget⟩ := getElem?_of_mapM hvs
  have hargc := toInt_ofInt_length hlen
  have harray : getArray pointerSize (mem.storePointers ps).pointers mem.free ps.length = some ps :=
    getArray_putArray (by decide) mem.free ps mem.pointers
  refine ⟨⟨target, Int32.ofInt ps.length, (mem.storePointers ps).free⟩,
    (mem.storePointers ps).storeValues vs, ?_, rfl, hargc, fun i a hi => ?_⟩
  · unfold copyArgv
    rw [if_neg (by rw [hargc]; exact Int.not_lt.2 (Int.natCast_nonneg _)), hargc, Int.toNat_natCast,
      harray, Option.bind_some, show ps.mapM (mem.storePointers ps).values = some vs from hvs]
  · have hlt : i < vs.length := by
      rw [hlenvs]
      exact (List.getElem?_eq_some_iff.1 hi).1
    rw [← hget i a hi]
    exact putArray_get (by decide) _ vs _ hlt

/-- The count of arguments is handed over as it is. -/
theorem copyArgv_argc {target : Target} {argc : Int32} {argvPtrs : ℕ} {mem mem' : Native}
    {h : Handover} (heq : copyArgv target argc argvPtrs mem = .ok (h, mem')) : h.argc = argc := by
  unfold copyArgv at heq
  split_ifs at heq
  split at heq
  · cases heq
    rfl
  · cases heq

/-- The null pointer gives no argument. -/
theorem copyArgv_null (target : Target) (mem : Native) {argc : Int32} (h : 0 < argc.toInt) :
    copyArgv target argc 0 mem = .error .crash := by
  unfold copyArgv
  rw [if_neg (Int.not_lt.2 h.le),
    getArray_eq_none mem.pointers_null (Int.pos_iff_toNat_pos.1 h)]
  rfl

/-! ## The three call paths -/

/-- A path hands the parameters to QuickJS. -/
def HandsOver (path : Dart (Handover × Native)) (ps : List ℕ) (mem : Native) (vm : VM) : Prop :=
  ∃ h mem' vm', path vm = .ok (h, mem') vm' ∧ PassesArgs ps mem h mem'

/-- `callJS` passes the arguments. -/
theorem handCallJS_passes (env : Env) (nulls : NullArgument) {vm : VM} {f : JSValue}
    (hf : isFunction env vm.heap f) (params : Option (List ℕ)) {mem : Native}
    (hlive : Live mem (params.getD [])) (hlen : (params.getD []).length < 2 ^ 31) :
    ∃ h mem', handCallJS env nulls f params mem vm = .ok (h, mem') vm ∧ h.target = .call f .null ∧
      PassesArgs (params.getD []) mem h mem' := by
  obtain ⟨h, mem', hcopy, htarget, hpasses⟩ := copyArgv_storePointers (.call f .null) hlive hlen
  refine ⟨h, mem', ?_, htarget, hpasses⟩
  unfold handCallJS
  rw [if_pos hf, passParams_data, dartCallJs, hcopy]
  rfl

/-- `invokeObject` reads the method, and passes the arguments. -/
theorem handInvokeObject_passes {vm vm₁ : VM} {o f : JSValue} {name : Utf16}
    (hget : getProperty env o name vm = .ok f vm₁) (hf : isFunction env vm₁.heap f)
    {params : Option (List ℕ)} {mem : Native} (hlive : Live mem (params.getD []))
    (hlen : (params.getD []).length < 2 ^ 31) :
    HandsOver (handInvokeObject env nulls o name params mem) (params.getD []) mem vm := by
  obtain ⟨h, mem', hcopy, -, hpasses⟩ :=
    copyArgv_storePointers (.invoke o (.ofString (ffiString name))) hlive hlen
  refine ⟨h, mem', vm₁, ?_, hpasses⟩
  unfold handInvokeObject
  rw [hget]
  dsimp only
  rw [if_pos hf, passParams_data, invoke, hcopy]
  rfl

/-- `callFunction` reads a key that the map does not have. -/
theorem handCallFunction_passes_iff {vm : VM} {f o : JSValue} {params : Option (List ℕ)}
    {mem : Native} :
    HandsOver (handCallFunction nulls f o params mem) (params.getD []) mem vm ↔
      nulls = .passes ∧ params.getD [] = [] := by
  unfold HandsOver handCallFunction
  rw [passParams_value]
  cases nulls with
  | throws =>
    constructor
    · rintro ⟨h, mem', vm', heq, _⟩
      cases heq
    · rintro ⟨hne, _⟩
      cases hne
  | passes =>
    dsimp only
    constructor
    · rintro ⟨h, mem', vm', heq, hargc, _⟩
      refine ⟨rfl, ?_⟩
      by_contra hne
      cases hcopy :
        call f o (Int32.ofInt (params.getD []).length) 0 (mem.storePointers (params.getD []))
        with
      | error e => rw [hcopy] at heq; cases heq
      | ok r =>
        -- the count that was passed is the positive length, and then the null pointer is read
        rw [hcopy] at heq
        cases heq
        have hpos : 0 < h.argc.toInt := by
          rw [hargc]
          exact Int.natCast_pos.2 (List.length_pos_iff.2 hne)
        rw [copyArgv_argc hcopy] at hpos
        rw [call, copyArgv_null _ _ hpos] at hcopy
        cases hcopy
    · rintro ⟨-, hnil⟩
      rw [hnil]
      refine ⟨_, _, vm, rfl, rfl, fun i a hi => by cases hi⟩

/-- The three paths hand over the same arguments where there are none and `dart:ffi` lets a `null`
pass. -/
theorem callPaths_agree_iff {vm vm₁ : VM} {f o : JSValue} {name : Utf16}
    (hf : isFunction env vm.heap f) (hget : getProperty env o name vm = .ok f vm₁)
    (hf₁ : isFunction env vm₁.heap f) {params : Option (List ℕ)} {mem : Native}
    (hlive : Live mem (params.getD [])) :
    (HandsOver (handCallFunction nulls f o params mem) (params.getD []) mem vm ∧
        HandsOver (handCallJS env nulls f params mem) (params.getD []) mem vm ∧
        HandsOver (handInvokeObject env nulls o name params mem) (params.getD []) mem vm) ↔
      nulls = .passes ∧ params.getD [] = [] := by
  constructor
  · rintro ⟨hcall, -, -⟩
    exact handCallFunction_passes_iff.1 hcall
  · intro h
    have hlen : (params.getD []).length < 2 ^ 31 := by
      rw [h.2]
      decide
    obtain ⟨hd, mem', hcallJS, -, hpasses⟩ := handCallJS_passes env nulls hf params hlive hlen
    exact ⟨handCallFunction_passes_iff.2 h, ⟨hd, mem', vm, hcallJS, hpasses⟩,
      handInvokeObject_passes hget hf₁ hlive hlen⟩

/-- Memory with the number two at the address sixteen. -/
def Native.two : Native where
  pointers _ := none
  values := Function.update (fun _ => none) 16 (some (.int 2))
  free := 32
  pointers_null := rfl
  values_lt {a v} h := by
    by_contra hle
    rw [Function.update_of_ne (by omega)] at h
    cases h
  free_pos := by decide

/-- The address of the sample is live. -/
theorem live_two : Live Native.two [16] := by
  intro a ha
  rw [List.mem_singleton.1 ha]
  exact ⟨.int 2, rfl⟩

/-- The function `__promise__getter` of the global object. -/
theorem getProperty_promiseGetter :
    getProperty Env.bare (.object globalObject) promiseGetterName VM.bare
      = .ok (.object 8) (VM.bare.dup (.object 8)) := rfl

/-- No parameters, with a `dart:ffi` that lets `null` pass. -/
theorem callPaths_agree_iff_none :
    HandsOver (handCallFunction .passes (.object 8) (.object globalObject) none Native.two) []
      Native.two
        VM.bare ∧
      HandsOver (handCallJS Env.bare .passes (.object 8) none Native.two) [] Native.two VM.bare ∧
      HandsOver (handInvokeObject Env.bare .passes (.object globalObject) promiseGetterName none
        Native.two) [] Native.two VM.bare :=
  (callPaths_agree_iff (by decide) getProperty_promiseGetter (by decide)
    (show Live Native.two ((none : Option (List ℕ)).getD [])
      from fun _ ha => nomatch ha)).2 ⟨rfl, rfl⟩

/-- One argument reaches the function through `callJS`, and not through `callFunction`. -/
theorem callFunction_one_argument :
    ¬ HandsOver (handCallFunction .throws (.object 8) (.object globalObject) (some [16]) Native.two)
        [16] Native.two VM.bare ∧
      ¬ HandsOver
        (handCallFunction .passes (.object 8) (.object globalObject) (some [16]) Native.two)
        [16] Native.two VM.bare ∧
      HandsOver (handCallJS Env.bare .throws (.object 8) (some [16]) Native.two) [16] Native.two
        VM.bare := by
  refine ⟨fun h => ?_, fun h => ?_, ?_⟩
  · exact nomatch (handCallFunction_passes_iff.1 h).1
  · exact nomatch (handCallFunction_passes_iff.1 h).2
  · obtain ⟨h, mem', heq, -, hpasses⟩ :=
      handCallJS_passes Env.bare .throws
        (show isFunction Env.bare VM.bare.heap (.object 8) by decide)
        (some [16]) live_two (by decide)
    exact ⟨h, mem', VM.bare, heq, hpasses⟩

/-! ## What a handler receives -/

/-- The elements of a vector, and the handles to them. -/
theorem PassesArgs.getArray {ps : List ℕ} {mem mem' : Native} {h : Handover}
    (hpasses : PassesArgs ps mem h mem') {vs : List JSValue} (hvs : ps.mapM mem.values = some vs) :
    getArray valueSize mem'.values h.argv h.argc.toInt.toNat = some vs := by
  obtain ⟨hargc, hvalues⟩ := hpasses
  obtain ⟨hlen, hget⟩ := getElem?_of_mapM hvs
  rw [hargc, Int.toNat_natCast, ← hlen]
  refine getArray_eq fun i hi => ?_
  rw [hlen] at hi
  have ha : ps[i]? = some ps[i] := List.getElem?_eq_getElem hi
  rw [hvalues i _ ha, hget i _ ha]

/-- A hook is called with the arguments that were handed over. -/
theorem Hook.deliver {vm : VM} {r : Ref} {handler : Handler} (hook : Hook vm r handler)
    {h : Handover} {this : JSValue} (htarget : h.target = .call (.object r) this) :
    deliver vm h = some ⟨handler, this, callBackArgs h.argc h.argv⟩ := by
  obtain ⟨o, data, ho, hcls, hfound⟩ := hook
  unfold QuickjsDart.deliver
  rw [htarget]
  dsimp only
  rw [ho]
  dsimp only
  rw [hcls]
  dsimp only
  rw [hfound]

/-- A hook is a function. -/
theorem Hook.isFunction {vm : VM} {r : Ref} {handler : Handler} (hook : Hook vm r handler) :
    isFunction env vm.heap (.object r) := by
  obtain ⟨o, data, ho, hcls, -⟩ := hook
  unfold QuickjsDart.isFunction
  dsimp only
  rw [ho]
  dsimp only
  rw [hcls]

/-- The handles of a vector that is not empty. -/
theorem callBackArgs_eq {argc : Int32} (h : 0 < argc.toInt) (argv : ℕ) :
    callBackArgs argc argv
      = some ((List.range argc.toInt.toNat).map fun i => argv + valueSize * i) := by
  unfold callBackArgs
  split_ifs with hlt hone
  · rfl
  · rw [hone]
    rfl
  · have : argc.toInt = (1 : Int32).toInt := le_antisymm (Int.not_lt.1 hlt) h
    exact absurd (Int32.toInt_inj.1 this) hone

/-- A handler receives what it is called with. -/
theorem callJS_receives {vm : VM} {r : Ref} {handler : Handler} (hook : Hook vm r handler)
    {ps : List ℕ} {mem : Native} (hlive : Live mem ps) (hpos : 0 < ps.length)
    (hlen : ps.length < 2 ^ 31) : Receives env nulls ps mem vm r handler := by
  obtain ⟨h, mem', hpath, htarget, hargc, hvalues⟩ :=
    handCallJS_passes env nulls hook.isFunction (some ps) hlive hlen
  have hargc' : h.argc.toInt = ps.length := hargc
  have hargs := callBackArgs_eq (by rw [hargc']; exact Int.natCast_pos.2 hpos) h.argv
  rw [hargc', Int.toNat_natCast] at hargs
  refine ⟨h, mem', _, _, hpath, hook.deliver htarget, rfl, hargs, by simp, fun i a hi => ?_⟩
  have hlt : i < ps.length := (List.getElem?_eq_some_iff.1 hi).1
  exact ⟨_, by simp [hlt], hvalues i a hi⟩

/-- Without arguments a handler receives null. -/
theorem callJS_receivesNull {vm : VM} {r : Ref} {handler : Handler} (hook : Hook vm r handler)
    (mem : Native) : ReceivesNull env nulls [] mem vm r handler := by
  obtain ⟨h, mem', hpath, htarget, hargc, -⟩ :=
    handCallJS_passes env nulls hook.isFunction (some [])
      (show Live mem [] from fun _ ha => nomatch ha) (by decide)
  refine ⟨h, mem', _, hpath, hook.deliver htarget, rfl, ?_⟩
  have hzero : h.argc = 0 := Int32.toInt_inj.1 hargc
  show callBackArgs h.argc h.argv = none
  rw [hzero]
  rfl

/-- A handler gets its arguments as a list where there are any, and `null` where there are none. -/
theorem callJS_arguments {vm : VM} {r : Ref} {handler : Handler} (hook : Hook vm r handler)
    {ps : List ℕ} {mem : Native} (hlive : Live mem ps) :
    (ps ≠ [] → ps.length < 2 ^ 31 → Receives env nulls ps mem vm r handler) ∧
      (ps = [] → ReceivesNull env nulls ps mem vm r handler) := by
  refine ⟨fun hne hlen => callJS_receives hook hlive (List.length_pos_iff.2 hne) hlen, ?_⟩
  rintro rfl
  exact callJS_receivesNull hook mem

/-- A call has one delivery. -/
theorem ReceivesNull.not_receives {ps : List ℕ} {mem : Native} {vm : VM} {r : Ref}
    {handler : Handler} (hnull : ReceivesNull env nulls ps mem vm r handler) :
    ¬ Receives env nulls ps mem vm r handler := by
  rintro ⟨h, mem', d, hs, hpath, hd, -, hargs, -⟩
  obtain ⟨h', mem'', d', hpath', hd', -, hargs'⟩ := hnull
  rw [hpath] at hpath'
  cases hpath'
  rw [hd] at hd'
  cases hd'
  rw [hargs] at hargs'
  cases hargs'

/-- A count that does not fit an `Int32`. -/
theorem not_receives_of_length {ps : List ℕ} (hlen : ps.length = 2 ^ 31) {mem : Native} {vm : VM}
    {r : Ref} {handler : Handler} (hook : Hook vm r handler) :
    ¬ Receives env nulls ps mem vm r handler := by
  rintro ⟨h, mem', d, hs, hpath, -⟩
  unfold handCallJS at hpath
  rw [if_pos hook.isFunction, passParams_data, dartCallJs, copyArgv, Option.getD_some, hlen,
    if_pos (by decide)] at hpath
  cases hpath

/-- An engine with a hook. -/
def hookVM : VM :=
  { VM.bare.alloc (.obj (hookObj 1)) with
    dartHandlerMap := some [(1, 0)]
    nextFuncHandlerId := some 1 }

/-- The state of the sample has a hook. -/
theorem hook_hookVM : Hook hookVM 9 0 := ⟨hookObj 1, intValue 1, rfl, rfl, rfl⟩

/-- Memory with the number two at the address sixteen, and `true` behind it. -/
def Native.twoTrue : Native where
  pointers _ := none
  values := Function.update Native.two.values 32 (some (.bool true))
  free := 48
  pointers_null := rfl
  values_lt {a v} h := by
    by_contra hle
    rw [Function.update_of_ne (by omega)] at h
    have := Native.two.values_lt h
    exact hle (this.trans (by decide))
  free_pos := by decide

/-- Three arguments, two of them by the same handle. -/
theorem callJS_arguments_three : Live Native.twoTrue [32, 16, 32] ∧
    Receives Env.bare .throws [32, 16, 32] Native.twoTrue hookVM 9 0 := by
  have hlive : Live Native.twoTrue [32, 16, 32] := by
    simp only [Live, List.forall_mem_cons]
    exact ⟨⟨.bool true, rfl⟩, ⟨.int 2, rfl⟩, ⟨.bool true, rfl⟩, nofun⟩
  exact ⟨hlive, (callJS_arguments hook_hookVM hlive).1 (by decide) (by decide)⟩

/-- No list for no arguments, and no call for more arguments than an `Int32` counts. -/
theorem callJS_no_arguments :
    ¬ Receives Env.bare .throws [] Native.two hookVM 9 0 ∧
      ¬ Receives Env.bare .throws (List.replicate (2 ^ 31) 16) Native.two hookVM 9 0 :=
  ⟨(callJS_receivesNull hook_hookVM Native.two).not_receives,
    not_receives_of_length List.length_replicate hook_hookVM⟩

/-! ## The layer below -/

/-- `callJS` on the values. -/
theorem handCallJS_run {vm : VM} {f : JSValue} {params : Option (List ℕ)} {mem : Native}
    {vs : List JSValue} (hlive : Live mem (params.getD []))
    (hvs : (params.getD []).mapM mem.values = some vs) (hlen : (params.getD []).length < 2 ^ 31) :
    (handCallJS env nulls f params mem >>= fun r => ffi .exception (r.1.run env r.2)) vm
      = callJS env f (some vs) vm := by
  by_cases hf : isFunction env vm.heap f
  · obtain ⟨h, mem', hpath, htarget, hpasses⟩ := handCallJS_passes env nulls hf params hlive hlen
    have hrun : h.run env mem' = jsCall env f .null vs := by
      unfold Handover.run
      rw [hpasses.getArray hvs]
      dsimp only
      rw [htarget]
    rw [bind_of_ok hpath, hrun, callJS, if_pos hf]
    rfl
  · have hpath :
        handCallJS env nulls f params mem vm = .error (.throws (.quickJS "not Function")) vm := by
      unfold handCallJS
      rw [if_neg hf]
    rw [bind_of_error hpath, callJS, if_neg hf]

/-- `callBackWrapper` on the values. -/
theorem deliver_run {vm : VM} {r : Ref} {o : Obj} {data this : JSValue} {handler : Handler}
    (ho : vm.heap.obj? r = some o) (hcls : o.cls = .function (.dart data))
    (hfound : findHandler vm data = .ok handler) {h : Handover}
    (htarget : h.target = .call (.object r) this) {ps : List ℕ} {mem mem' : Native}
    {vs : List JSValue} (hpasses : PassesArgs ps mem h mem') (hvs : ps.mapM mem.values = some vs) :
    ∃ d, deliver vm h = some d ∧ callBackWrapper env this vs data vm
      = env.handler d.handler d.this (d.args.bind fun hs => hs.mapM mem'.values) vm := by
  refine ⟨_, Hook.deliver ⟨o, data, ho, hcls, hfound⟩ htarget, ?_⟩
  have hargs :
      handlerArgs vs = (callBackArgs h.argc h.argv).bind fun hs => hs.mapM mem'.values := by
    cases ps with
    | nil =>
      cases hvs
      have hzero : h.argc = 0 := Int32.toInt_inj.1 hpasses.1
      rw [hzero]
      rfl
    | cons a ps =>
      have hpos : 0 < h.argc.toInt := by
        rw [hpasses.1]
        exact Int.natCast_pos.2 (Nat.succ_pos _)
      rw [callBackArgs_eq hpos, Option.bind_some, mapM_addresses, hpasses.getArray hvs]
      have hlen := (getElem?_of_mapM hvs).1
      cases vs with
      | nil => cases hlen
      | cons v vs => rfl
  unfold callBackWrapper
  rw [hfound]
  dsimp only
  rw [hargs]

end

end QuickjsDart
