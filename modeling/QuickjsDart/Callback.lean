import QuickjsDart.Arguments
import QuickjsDart.Marshal.Counts

/-!
# The return of a handler

What `wrapperFunc` makes of a result that is no future, and what `InvokeDartCallback` does with the
pointer it gets: it reads the value and frees the cell. Every result gets a cell of its own, and a
handle that is passed back is duplicated, so the counts are as before once JavaScript has dropped
the result (`return_keeps_counts`).
-/

namespace QuickjsDart

open Codec Memory

/-- What a handler returned: `null`, a handle, or another value that is no future. -/
inductive HandlerResult where
  | null
  | handle (a : ℕ)
  | value (x : DartVal)

/-- The value that a pending exception holds. -/
def pendingValue : Option JSFault → JSValue
  | some (.value v) => v
  | _ => .undefined

/-- `JS_Throw` releases the exception that was pending. -/
def replacingException {α : Type} (act : Dart α) : Dart α := fun vm =>
  match act { vm with currentException := none } with
  | .ok a vm' =>
    match vm'.currentException with
    | none => .ok a { vm' with currentException := vm.currentException }
    | some _ => .ok a (vm'.free (pendingValue vm.currentException))
  | .error e vm' => .error e vm'

/-- `jsvalue_to_heap`: a new cell with the value. -/
def jsvalueToHeap (mem : Native) (v : JSValue) : ℕ × Native := (mem.free, mem.storeValues [v])

variable (env : Env)

/-- `wrapperFunc` after the handler has returned, up to the pointer. The cells of the handles that a
conversion makes on its way are left out. -/
def wrapperResult (mem : Native) : HandlerResult → Dart (ℕ × Native)
  | .null => do
    let v ← newUndefined
    pure (jsvalueToHeap mem v)
  | .handle a =>
    match mem.values a with
    | none => throw .crash
    | some v => do
      let v ← dupHandle v
      pure (jsvalueToHeap mem v)
  | .value x => do
    let v ← replacingException (toJSVal env x)
    pure (jsvalueToHeap mem v)

/-- From the return of the handler until JavaScript has dropped the result, with the cell that
`InvokeDartCallback` frees. -/
def returnAndDrop (mem : Native) (r : HandlerResult) : Dart ℕ := do
  let (ptr, mem') ← wrapperResult env mem r
  match mem'.values ptr with
  | none => throw .crash
  | some ret => do
    freeHandle ret
    pure ptr

section

variable {env} {T : Ref → Prop}

/-- The cell holds the value it was made for. -/
theorem returnAndDrop_of_ok {mem : Native} {r : HandlerResult} {vm vm₁ : VM} {v : JSValue}
    (h : wrapperResult env mem r vm = .ok (jsvalueToHeap mem v) vm₁) :
    returnAndDrop env mem r vm = .ok mem.free (vm₁.free v) := by
  rw [returnAndDrop, bind_of_ok h]
  unfold jsvalueToHeap
  dsimp only
  rw [storeValues_singleton]
  rfl

/-- A result that is null is `undefined`, of which nothing is counted. -/
theorem returnAndDrop_null (mem : Native) (vm : VM) :
    returnAndDrop env mem .null vm = .ok mem.free (vm.free .undefined) := returnAndDrop_of_ok rfl

/-- The handle that a callback returns is copied, and dropped with its references. -/
theorem returnAndDrop_handle {mem : Native} {a : ℕ} {v : JSValue} (ha : mem.values a = some v)
    (vm : VM) : returnAndDrop env mem (.handle a) vm = .ok mem.free ((vm.dup v).free v) := by
  refine returnAndDrop_of_ok ?_
  unfold wrapperResult
  dsimp only
  rw [ha]
  rfl

/-- A live value that is passed back. -/
theorem count_dup_free {vm : VM} {v : JSValue}
    (hlive : ∀ x, v.ref? = some x → 0 < Memory.count vm.heap x) (r : Ref) :
    Memory.count ((vm.dup v).free v).heap r = Memory.count vm.heap r := by
  cases hv : v.ref? with
  | none =>
    rw [heap_free_of_ref?_eq_none hv]
    show Memory.count (vm.heap.dupValue v) r = _
    unfold Heap.dupValue
    rw [hv]
  | some x =>
    show Memory.count (Memory.release Body.refs v.ref?.toList (vm.heap.dupValue v)) r = _
    unfold Heap.dupValue
    rw [hv]
    exact Memory.count_release_bump (hlive x hv) r

/-- A conversion with no exception pending: the heap is the one that `toJSVal` leaves. -/
theorem replacingException_of_ok {α : Type} {act : Dart α} {vm vm₁ : VM} {a : α}
    (hnone : vm.currentException = none) (h : replacingException act vm = .ok a vm₁) :
    ∃ vm', act vm = .ok a vm' ∧ vm₁.heap = vm'.heap := by
  have hvm : { vm with currentException := none } = vm := by rw [← hnone]
  unfold replacingException at h
  rw [hvm] at h
  cases hrun : act vm with
  | error e vm' => rw [hrun] at h; cases h
  | ok b vm' =>
    rw [hrun] at h
    dsimp only at h
    cases hexc : vm'.currentException with
    | none =>
      rw [hexc] at h
      cases h
      exact ⟨vm', rfl, rfl⟩
    | some e =>
      rw [hexc] at h
      cases h
      refine ⟨vm', rfl, ?_⟩
      rw [hnone]
      exact heap_free_of_ref?_eq_none rfl vm'

/-- A value that is converted keeps the counts that were. -/
theorem returnAndDrop_value {mem : Native} {x : DartVal} {vm vm' : VM} {ptr : ℕ}
    (hs : ScriptFree vm.heap T) (hnone : vm.currentException = none)
    (h : returnAndDrop env mem (.value x) vm = .ok ptr vm') :
    ptr = mem.free ∧ ∀ r < vm.heap.length, Memory.count vm'.heap r = Memory.count vm.heap r := by
  unfold returnAndDrop at h
  obtain ⟨p, vm₁, hwrap, hrest⟩ := bind_eq_ok.1 h
  obtain ⟨v, vm₂, hconv, hpure⟩ := bind_eq_ok.1 hwrap
  cases hpure
  have hdrop : returnAndDrop env mem (.value x) vm = _ := returnAndDrop_of_ok hwrap
  unfold returnAndDrop at hdrop
  rw [h] at hdrop
  cases hdrop
  obtain ⟨vm₃, hconv', hheap⟩ := replacingException_of_ok hnone hconv
  refine ⟨rfl, fun r hr => ?_⟩
  have hcount := toJSVal_free_count env hs hconv' hr
  show Memory.count (vm₁.heap.freeValue v) r = _
  rw [hheap]
  exact hcount

/-- The return of a result steals no reference. A handle that is passed back must not dangle, and a
conversion must run no script code and find no exception pending. -/
theorem return_keeps_counts {mem : Native} {r : HandlerResult} {vm vm' : VM} {ptr : ℕ}
    (hlive : ∀ a v x, r = .handle a → mem.values a = some v → v.ref? = some x →
      0 < Memory.count vm.heap x)
    (hconv : ∀ x, r = .value x → ScriptFree vm.heap T ∧ vm.currentException = none)
    (h : returnAndDrop env mem r vm = .ok ptr vm') :
    (∀ x < vm.heap.length, Memory.count vm.heap x ≤ Memory.count vm'.heap x) ∧
      ((r = .null ∨ ∃ a, r = .handle a) →
        ∀ x < vm.heap.length, Memory.count vm'.heap x = Memory.count vm.heap x) ∧
      ∀ a v, mem.values a = some v → a ≠ ptr := by
  have hmain : ptr = mem.free ∧
      ∀ x < vm.heap.length, Memory.count vm'.heap x = Memory.count vm.heap x := by
    cases r with
    | null =>
      rw [returnAndDrop_null] at h
      cases h
      exact ⟨rfl, fun x _ => by rw [heap_free_of_ref?_eq_none rfl]⟩
    | handle a =>
      cases ha : mem.values a with
      | none =>
        unfold returnAndDrop wrapperResult at h
        dsimp only at h
        rw [ha] at h
        cases h
      | some v =>
        rw [returnAndDrop_handle ha] at h
        cases h
        exact ⟨rfl, fun x _ => count_dup_free (fun y hy => hlive a v y rfl ha hy) x⟩
    | value x => exact returnAndDrop_value (hconv x rfl).1 (hconv x rfl).2 h
  obtain ⟨rfl, hcount⟩ := hmain
  refine ⟨fun x hx => (hcount x hx).ge, fun _ => hcount, fun a v ha => ?_⟩
  exact Nat.ne_of_lt (mem.values_lt ha)

/-- The object `{x: 1}`. -/
def smallMap : DartVal := .map [(some [0x78], .int 1)]

/-- The conversion of `smallMap`, with its recursion unfolded. -/
theorem toJSVal_smallMap : toJSVal env smallMap = (do
    let jsObj ← newObject
    let one ← newInt32 1
    setProperty env jsObj (.string [0x78]) one true
    pure jsObj) := by
  unfold smallMap
  simp only [toJSVal, createJSObject, setEntries, setMember, Option.elim_some, bind_assoc,
    bind_pure_unit]

/-- A small map is returned. -/
theorem returnAndDrop_smallMap :
    ∃ ptr vm', returnAndDrop Env.bare Native.two (.value smallMap) VM.bare = .ok ptr vm' := by
  unfold returnAndDrop wrapperResult
  dsimp only
  rw [toJSVal_smallMap]
  exact ⟨_, _, rfl⟩

/-- Its return keeps the counts. -/
theorem return_keeps_counts_smallMap :
    ∃ ptr vm', returnAndDrop Env.bare Native.two (.value smallMap) VM.bare = .ok ptr vm' ∧
      (∀ x < VM.bare.heap.length, Memory.count VM.bare.heap x ≤ Memory.count vm'.heap x) ∧
      ∀ a v, Native.two.values a = some v → a ≠ ptr := by
  obtain ⟨ptr, vm', h⟩ := returnAndDrop_smallMap
  obtain ⟨hle, -, hptr⟩ := return_keeps_counts (r := .value smallMap)
    (fun _ _ _ hr => nomatch hr) (fun _ _ => ⟨scriptFree_bare, rfl⟩) h
  exact ⟨ptr, vm', h, hle, hptr⟩

end

/-! ## Assignments that run a setter or raise -/

/-- The global object of `assignVM`, with and without the property `h`. -/
def globalHolding (held : Bool) : Obj :=
  ⟨.object, some objectPrototype, true,
    if held then [(.name (asciiUnits [0x68]), .data (.object 10) .cwe)] else []⟩

/-- `Object.prototype` has the property `x`. The only reference to the object in cell 10 is the
global property `h` or the pending exception. -/
def assignVM (x : Slot) (held : Bool) : VM := { VM.bare with
  heap :=
    [⟨1, .obj ⟨.object, none, true,
        [(.name protoName, .accessor none (some 7) ⟨false, false, true⟩),
          (.name (asciiUnits [0x78]), x)]⟩⟩,
      ⟨1, .obj ⟨.array 0, some objectPrototype, true, []⟩⟩,
      ⟨1, .obj ⟨.object, some objectPrototype, true, []⟩⟩,
      ⟨1, .obj ⟨.object, some objectPrototype, true, []⟩⟩,
      ⟨1, .obj (globalHolding held)⟩,
      ⟨1, .leaf⟩,
      ⟨1, .obj ⟨.object, some objectPrototype, true, []⟩⟩,
      ⟨1, .obj ⟨.function .protoSetter, some functionPrototype, true, []⟩⟩,
      ⟨1, .obj ⟨.function .createPromise, some functionPrototype, true, []⟩⟩,
      ⟨1, .obj ⟨.function (.script 0), some functionPrototype, true, []⟩⟩,
      ⟨1, .obj ⟨.object, some objectPrototype, true, []⟩⟩]
  currentException := if held then none else some (.value (.object 10)) }

/-- The script function runs `delete globalThis.h`. -/
def setterEnv : Env where
  __ := Env.bare
  call _ _ _ := fun vm =>
    .ok .undefined ((vm.setObj globalObject (globalHolding false)).free (.object 10))

/-- The result of a run has lost a reference that the cell had before. -/
def LosesCount (env : Env) (mem : Native) (r : HandlerResult) (vm : VM) (x : Ref) : Prop :=
  ∃ ptr vm', returnAndDrop env mem r vm = .ok ptr vm' ∧ x < vm.heap.length ∧
    Memory.count vm'.heap x < Memory.count vm.heap x

/-- A handler returns `{x: 1}`. Where `x` has a setter the conversion runs it, and where `x` is
read-only the conversion raises, which releases the exception that was pending. -/
theorem return_drops_reference :
    LosesCount setterEnv Native.two (.value smallMap)
        (assignVM (.accessor none (some 9) ⟨false, false, true⟩) true) 10 ∧
      LosesCount Env.bare Native.two (.value smallMap)
        (assignVM (.data .null ⟨false, false, true⟩) false) 10 := by
  unfold LosesCount returnAndDrop wrapperResult
  dsimp only
  rw [toJSVal_smallMap, toJSVal_smallMap]
  refine ⟨⟨_, _, rfl, by decide, ?_⟩, ⟨_, _, rfl, by decide, ?_⟩⟩
  · decide
  · decide

end QuickjsDart
