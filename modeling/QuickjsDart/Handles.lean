import QuickjsDart.Accounts
import QuickjsDart.Callback

/-!
# Handles

A Dart program that makes, copies and frees handles, reads and assigns properties and calls
functions. Each handle that was not freed owns a reference. `setProperty` duplicates its value, but
`setPropertyString` and `setPropertyValue` let QuickJS take the reference of the handle, which the
program still has.

`handles_covered` says when the counts cover the handles and the slots in every state of a run:
where these two are given only values that are not reference counted.
-/

namespace QuickjsDart

open Codec

/-! ## Operations -/

/-- The constructors `JSValue.new*`. -/
inductive NewValue where
  | int32 (n : Int64)
  | uint32 (n : Int64)
  | int64 (n : Int64)
  | bigInt64 (n : Int64)
  | bigUint64 (n : Int64)
  | float64 (d : Binary64)
  | bool (b : Bool)
  | null
  | undefined
  | string (s : Utf16)
  | atomString (s : Utf16)
  | object
  | array
  | error

/-- The handle that a constructor makes. -/
def NewValue.make (env : Env) : NewValue → Dart JSValue
  | int32 n => newInt32 n
  | uint32 n => newUint32 n
  | int64 n => newInt64 n
  | bigInt64 n => newBigInt64 env n
  | bigUint64 n => newBigUint64 env n
  | float64 d => newFloat64 d
  | bool b => newBool b
  | null => newNull
  | undefined => newUndefined
  | string s => newString s
  | atomString s => newAtomString s
  | object => newObject
  | array => newArray
  | error => newError

/-- An operation of the program on its handles. -/
inductive HandleOp where
  | make (new : NewValue)
  | getProperty (this : JSValue) (name : Utf16)
  | setProperty (this : JSValue) (name : PropName) (v : JSValue) (throwFlag : Bool)
  | setPropertyString (this : JSValue) (name : Utf16) (v : JSValue)
  | setPropertyValue (this : JSValue) (name : Utf16) (v : JSValue) (throwFlag : Bool)
  | callJS (f : JSValue) (params : Option (List JSValue))
  | copy (v : JSValue)
  | free (v : JSValue)

/-- The handles that an operation uses. -/
def HandleOp.uses : HandleOp → List JSValue
  | make _ => []
  | getProperty this _ => [this]
  | setProperty this _ v _ => [this, v]
  | setPropertyString this _ v => [this, v]
  | setPropertyValue this _ v _ => [this, v]
  | callJS f params => f :: params.getD []
  | copy v => [v]
  | free v => [v]

/-- The handle that `setProperty` makes for a name and never frees. -/
def PropName.dropped (vm : VM) : PropName → List JSValue
  | int _ => []
  | string s => [.string vm.heap.length (ffiString s)]
  | null => [.string vm.heap.length (ffiString nullName)]

variable (env : Env)

/-- The operation, with the handles that it makes. -/
def HandleOp.run : HandleOp → Dart (List JSValue)
  | make new => do
    let v ← new.make env
    pure [v]
  | getProperty this name => do
    let v ← QuickjsDart.getProperty env this name
    pure [v]
  | setProperty this name v throwFlag => do
    let vm ← get
    QuickjsDart.setProperty env this name v throwFlag
    pure (name.dropped vm)
  | setPropertyString this name v => do
    QuickjsDart.setPropertyString env this name v
    pure []
  | setPropertyValue this name v throwFlag => do
    QuickjsDart.setPropertyValue env this name v throwFlag
    pure []
  | callJS f params => do
    let v ← QuickjsDart.callJS env f params
    pure [v]
  | copy v => do
    let v ← dupHandle v
    pure [v]
  | free v => do
    freeHandle v
    pure []

/-- The handles that an operation leaves. -/
def HandleOp.left (hs : List JSValue) : HandleOp → List JSValue
  | free v => hs.erase v
  | _ => hs

/-- `JS_Throw` releases the exception that was pending; one that is not replaced stays. -/
def VM.putBack (vm : VM) (pending : Option JSFault) : VM :=
  match vm.currentException with
  | none => { vm with currentException := pending }
  | some _ => vm.free (pendingValue pending)

/-- An operation, with the exception that was pending before. -/
def withPending {α : Type} (act : Dart α) : Dart α := fun vm =>
  match act { vm with currentException := none } with
  | .ok a vm' => .ok a (vm'.putBack vm.currentException)
  | .error e vm' => .error e (vm'.putBack vm.currentException)

/-- One operation of the program, on handles that it has. After an error it goes on with the handles
it had. -/
inductive HandleStep : VM × List JSValue → HandleOp → VM × List JSValue → Prop
  | returns {vm vm' : VM} {hs made : List JSValue} {op : HandleOp} (huses : ∀ v ∈ op.uses, v ∈ hs)
      (hrun : withPending (op.run env) vm = .ok made vm') :
      HandleStep (vm, hs) op (vm', made ++ op.left hs)
  | throws {vm vm' : VM} {hs : List JSValue} {op : HandleOp} {e : DartError}
      (huses : ∀ v ∈ op.uses, v ∈ hs)
      (hrun : withPending (op.run env) vm = .error (.throws e) vm') :
      HandleStep (vm, hs) op (vm', hs)

/-- One operation after the other. -/
inductive HandleRun : VM × List JSValue → List HandleOp → VM × List JSValue → Prop
  | nil {s : VM × List JSValue} : HandleRun s [] s
  | cons {s s₁ s₂ : VM × List JSValue} {op : HandleOp} {ops : List HandleOp}
      (hstep : HandleStep env s op s₁) (hrest : HandleRun s₁ ops s₂) : HandleRun s (op :: ops) s₂

/-! ## The invariant -/

/-- The handles to a cell. -/
def handlesTo (hs : List JSValue) (r : Ref) : ℕ := hs.countP fun v => v.ref? = some r

/-- The property slots of a body that hold a cell. -/
def Body.slotsTo (r : Ref) : Body → ℕ
  | leaf => 0
  | obj o => (o.props.flatMap fun p => p.2.refs).count r

/-- The property slots that hold a cell; those of destroyed objects are gone. -/
def Heap.slotsTo (h : Heap) (r : Ref) : ℕ :=
  (h.map fun c => if 0 < c.refCount then c.body.slotsTo r else 0).sum

/-- The counts cover the handles and the slots, so that no cell is destroyed that one of them refers
to. -/
def HandlesCovered (vm : VM) (hs : List JSValue) : Prop := ∀ r,
  (handlesTo hs r + vm.heap.slotsTo r : ℕ) ≤ Memory.count vm.heap r ∧
    (0 < handlesTo hs r + vm.heap.slotsTo r → 0 < Memory.count vm.heap r)

/-- The setters that do not duplicate are given a value that is not reference counted. -/
def HandleOp.Careful : HandleOp → Prop
  | setPropertyString _ _ v => v.ref? = none
  | setPropertyValue _ _ v _ => v.ref? = none
  | _ => True

section

variable {env} {ctx own : List Ref} {vm : VM}

/-- The references that the handles own. -/
def handleRefs (hs : List JSValue) : List Ref := hs.flatMap JSValue.refs

/-- Handles are counted by their references. -/
theorem handlesTo_eq (hs : List JSValue) (r : Ref) : handlesTo hs r = (handleRefs hs).count r := by
  induction hs with
  | nil => rfl
  | cons v hs ih =>
    have hv : (v.refs).count r = if v.ref? = some r then 1 else 0 := by
      unfold JSValue.refs
      cases v.ref? with
      | none => rfl
      | some x => simp [List.count_singleton]
    unfold handlesTo at ih ⊢
    rw [List.countP_cons, handleRefs, List.flatMap_cons, List.count_append, hv, ← handleRefs, ih]
    simp only [decide_eq_true_eq]
    omega

/-- A body has no more slots for a cell than references to it. -/
theorem slotsTo_le (b : Body) (r : Ref) : b.slotsTo r ≤ b.refs.count r := by
  cases b with
  | leaf => exact Nat.zero_le _
  | obj o =>
    rw [count_refs_obj]
    exact Nat.le_add_left _ _

/-- The slots of live cells are among the references of the heap. -/
theorem slotsTo_le_held (h : Heap) (r : Ref) : h.slotsTo r ≤ Memory.held Body.refs h r := by
  refine List.sum_le_sum fun c _ => ?_
  unfold Memory.holds
  split_ifs
  · exact slotsTo_le c.body r
  · exact le_rfl

/-- The account of the engine is more than what the handles need. -/
theorem Accounts.handlesCovered {hs : List JSValue} (h : Accounts ctx vm (handleRefs hs)) :
    HandlesCovered vm hs := by
  intro r
  have hr := h r (Nat.zero_le r)
  have hslots := slotsTo_le_held vm.heap r
  beta_reduce at hr
  rw [List.drop_zero, List.count_append, ← handlesTo_eq] at hr
  constructor
  · omega
  · omega

/-! ## Operations keep the account -/

/-- A new BigInt is one more reference of the caller. -/
theorem balances_jsNewBigInt (h : Accounts ctx vm own) (n : ℤ) :
    (accountsLedger ctx).Ends own own JSValue.refs vm (jsNewBigInt env n vm) := by
  unfold jsNewBigInt
  split_ifs
  · exact h.allocFree (b := .leaf) rfl
  · exact h

/-- So is any new value. -/
theorem balances_make (henv : env.Balanced ctx) (h : Accounts ctx vm own) (new : NewValue) :
    (accountsLedger ctx).DartEnds own own JSValue.refs vm (new.make env vm) := by
  have hscalar : ∀ {v : JSValue}, v.refs = [] →
      (accountsLedger ctx).DartEnds own own JSValue.refs vm ((pure v : Dart JSValue) vm) := by
    intro v hv
    show Accounts ctx vm (v.refs ++ own)
    rwa [hv]
  cases new with
  | int32 n => exact hscalar rfl
  | uint32 n => exact hscalar (refs_intValue _)
  | int64 n => exact hscalar (refs_intValue _)
  | float64 d => exact hscalar (refs_jsNewFloat64 d)
  | bool b => exact hscalar rfl
  | null => exact hscalar rfl
  | undefined => exact hscalar rfl
  | bigInt64 n => exact (accounting henv).ffi h (balances_jsNewBigInt h n.toInt) rfl
  | bigUint64 n => exact (accounting henv).ffi h (balances_jsNewBigInt h (n.toInt % 2 ^ 64)) rfl
  | string s => exact h.allocFree (b := .leaf) rfl
  | atomString s => exact h.allocFree (b := .leaf) rfl
  | object => exact h.allocFree (b := .obj (.fresh .object objectPrototype)) rfl
  | array => exact h.allocFree (b := .obj (.fresh (.array 0) arrayPrototype)) rfl
  | error => exact h.allocFree (b := .obj (.fresh .error errorPrototype)) rfl

/-- The handle of a name. -/
theorem accounts_handle (h : Accounts ctx vm own) (name : PropName) :
    ∃ w vm',
      name.handle vm = .ok w vm' ∧ Accounts ctx vm' (handleRefs (name.dropped vm) ++ own) := by
  cases name with
  | int i => exact ⟨_, _, rfl, h⟩
  | string s => exact ⟨_, _, rfl, h.allocFree (b := .leaf) rfl⟩
  | null => exact ⟨_, _, rfl, h.allocFree (b := .leaf) rfl⟩

/-- `setProperty` keeps the handle to its value. -/
theorem balances_setProperty (henv : env.Balanced ctx) (h : Accounts ctx vm own) {this v : JSValue}
    (hthis : ∀ r ∈ this.refs, r ∈ own) (hv : ∀ r ∈ v.refs, r ∈ own) (name : PropName)
    (throwFlag : Bool) :
    (accountsLedger ctx).DartEnds own own handleRefs vm
      ((HandleOp.setProperty this name v throwFlag).run env vm) := by
  obtain ⟨w, vm₁, hhandle, hacc⟩ := accounts_handle h name
  have hsub :
      ∀ {l : List Ref}, (∀ r ∈ l, r ∈ own) → ∀ r ∈ l, r ∈ handleRefs (name.dropped vm) ++ own :=
    fun hl r hr => List.mem_append_right _ (hl r hr)
  have halive := hacc.alive (hsub hv)
  have hdup := (hacc.dup halive).alive fun r hr => List.mem_append_left _ hr
  have hset : (accountsLedger ctx).DartEnds (handleRefs (name.dropped vm) ++ own)
      (handleRefs (name.dropped vm) ++ own) noRefs vm₁
      (ffi () (setProp env this name.key v throwFlag) vm₁) :=
    (accounting henv).ffi hacc
      ((accounting henv).setProp hacc (hsub hthis) halive hdup trivial) rfl
  show (accountsLedger ctx).DartEnds own own handleRefs vm
    ((QuickjsDart.setProperty env this name v throwFlag >>= fun _ => pure (name.dropped vm)) vm)
  have hrun : QuickjsDart.setProperty env this name v throwFlag vm
      = ffi () (setProp env this name.key v throwFlag) vm₁ := bind_of_ok hhandle
  cases hres : ffi () (setProp env this name.key v throwFlag) vm₁ with
  | ok u vm' =>
    rw [hres] at hset
    rw [bind_of_ok (hrun.trans hres)]
    exact hset
  | error e vm' =>
    rw [bind_of_error (hrun.trans hres), ffi_error hres]
    trivial

/-- A setter that does not duplicate, with a value that is not counted. -/
theorem balances_setUncounted (henv : env.Balanced ctx) (h : Accounts ctx vm own) {this v : JSValue}
    (hthis : ∀ r ∈ this.refs, r ∈ own) (hv : v.ref? = none) (key : PropKey) (throwFlag : Bool) :
    (accountsLedger ctx).DartEnds own own noRefs vm ((do
      let _ ← ffi false (jsSetPropertyInternal env this key v throwFlag) : Dart Unit) vm) := by
  have hnil : v.refs = [] := by
    unfold JSValue.refs
    rw [hv]
    rfl
  have hacc : Accounts ctx vm (v.refs ++ own) := by rwa [hnil]
  have hset : (accountsLedger ctx).DartEnds own own noRefs vm
      (ffi false (jsSetPropertyInternal env this key v throwFlag) vm) :=
    (accounting henv).ffi h ((accounting henv).jsSetPropertyInternal hacc hthis
      (hacc.alive fun r hr => List.mem_append_left _ hr) trivial) rfl
  exact hset.map fun _ => rfl

/-- **One operation.** `extra` are references that the program does not see. -/
theorem balances_run (henv : env.Balanced ctx) {extra : List Ref} {hs : List JSValue}
    {op : HandleOp} (h : Accounts ctx vm (extra ++ handleRefs hs)) (huses : ∀ v ∈ op.uses, v ∈ hs)
    (hcareful : op.Careful) (hfree : ∀ v, op ≠ .free v) :
    (accountsLedger ctx).DartEnds (extra ++ handleRefs hs) (extra ++ handleRefs hs) handleRefs vm
      (op.run env vm) := by
  have hmem : ∀ v ∈ op.uses, ∀ r ∈ v.refs, r ∈ extra ++ handleRefs hs := fun v hv r hr =>
    List.mem_append_right _ (List.mem_flatMap.2 ⟨v, huses v hv, hr⟩)
  have hone : ∀ v : JSValue, handleRefs [v] = v.refs := fun v => List.append_nil _
  cases op with
  | make new => exact (balances_make henv h new).map hone
  | getProperty this name =>
    have hthis := h.alive (hmem this List.mem_cons_self)
    exact ((accounting henv).ffi h ((accounting henv).jsGetProperty h hthis _) rfl).map hone
  | setProperty this name v throwFlag =>
    exact balances_setProperty henv h (hmem this List.mem_cons_self)
      (hmem v (List.mem_cons_of_mem _ List.mem_cons_self)) name throwFlag
  | setPropertyString this name v =>
    exact (balances_setUncounted henv h (hmem this List.mem_cons_self) hcareful _ true).map
      fun _ => rfl
  | setPropertyValue this name v throwFlag =>
    exact (balances_setUncounted henv h (hmem this List.mem_cons_self) hcareful _ throwFlag).map
      fun _ => rfl
  | callJS f params =>
    have hcall := (accounting henv).callJS h (hmem f List.mem_cons_self) fun a ha =>
      hmem a (List.mem_cons_of_mem _ ha)
    exact hcall.map hone
  | copy v =>
    have hdup : (accountsLedger ctx).DartEnds (extra ++ handleRefs hs) (extra ++ handleRefs hs)
        JSValue.refs vm (dupHandle v vm) :=
      h.dup (h.alive (hmem v List.mem_cons_self))
    exact hdup.map hone
  | free v => exact absurd rfl (hfree v)

/-- A handle that is taken out takes its reference. -/
theorem count_handleRefs_erase {hs : List JSValue} {v : JSValue} (hv : v ∈ hs) (r : Ref) :
    (v.refs ++ handleRefs (hs.erase v)).count r = (handleRefs hs).count r :=
  (List.Perm.flatMap_right JSValue.refs (List.perm_cons_erase hv).symm).count_eq r

/-- An operation that returns: the program owns what it made, and no more what it freed. -/
theorem accounts_run_ok (henv : env.Balanced ctx) {extra : List Ref} {hs : List JSValue}
    {op : HandleOp} (h : Accounts ctx vm (extra ++ handleRefs hs)) (huses : ∀ v ∈ op.uses, v ∈ hs)
    (hcareful : op.Careful) {made : List JSValue} {vm' : VM} (hrun : op.run env vm = .ok made vm') :
    Accounts ctx vm' (handleRefs made ++ (extra ++ handleRefs (op.left hs))) := by
  by_cases hfree : ∃ v, op = .free v
  · obtain ⟨v, rfl⟩ := hfree
    cases hrun
    refine Accounts.free (h.mono fun r => ?_)
    have hcount := count_handleRefs_erase (huses v List.mem_cons_self) r
    show (v.refs ++ (extra ++ handleRefs (hs.erase v))).count r ≤ _
    simp only [List.count_append] at hcount ⊢
    omega
  · have hleft : op.left hs = hs := by
      cases op with
      | free v => exact absurd ⟨v, rfl⟩ hfree
      | _ => rfl
    have hbal := balances_run henv h huses hcareful fun v hv => hfree ⟨v, hv⟩
    rw [hrun] at hbal
    rw [hleft]
    exact hbal

/-- An operation that throws. -/
theorem accounts_run_throws (henv : env.Balanced ctx) {extra : List Ref} {hs : List JSValue}
    {op : HandleOp} (h : Accounts ctx vm (extra ++ handleRefs hs)) (huses : ∀ v ∈ op.uses, v ∈ hs)
    (hcareful : op.Careful) {e : DartError} {vm' : VM}
    (hrun : op.run env vm = .error (.throws e) vm') :
    Accounts ctx vm' (extra ++ handleRefs hs) := by
  by_cases hfree : ∃ v, op = .free v
  · obtain ⟨v, rfl⟩ := hfree
    cases hrun
  · have hbal := balances_run henv h huses hcareful fun v hv => hfree ⟨v, hv⟩
    rw [hrun] at hbal
    exact hbal

/-- The references of the pending exception. -/
theorem refs_pendingValue (e : Option JSFault) :
    (pendingValue e).refs = e.elim [] JSFault.refs := by
  cases e with
  | none => rfl
  | some e => cases e <;> rfl

/-- The exception that was pending is put aside while an operation runs. -/
theorem Accounts.putAside (h : Accounts ctx vm own) :
    Accounts ctx { vm with currentException := none }
      ((pendingValue vm.currentException).refs ++ own) := by
  refine Heap.Covers.mono h fun r => ?_
  rw [refs_pendingValue]
  simp only [VM.engineRefs, Option.elim_none, List.nil_append, List.count_append]
  omega

/-- Afterwards it is pending again, or released. -/
theorem Accounts.putBack {e : Option JSFault} (h : Accounts ctx vm ((pendingValue e).refs ++ own)) :
    Accounts ctx (vm.putBack e) own := by
  unfold VM.putBack
  cases hexc : vm.currentException with
  | some d => exact h.free
  | none =>
    refine Heap.Covers.mono h fun r => ?_
    rw [refs_pendingValue]
    simp only [VM.engineRefs, hexc, Option.elim_none, List.nil_append, List.count_append]
    omega

/-- A step of the program keeps the account. -/
theorem HandleStep.accounts (henv : env.Balanced ctx) {s s' : VM × List JSValue} {op : HandleOp}
    (hstep : HandleStep env s op s') (hcareful : op.Careful)
    (h : Accounts ctx s.1 (handleRefs s.2)) :
    Accounts ctx s'.1 (handleRefs s'.2) := by
  cases hstep with
  | @returns vm vm' hs made op huses hrun =>
    unfold withPending at hrun
    cases hact : op.run env { vm with currentException := none } with
    | error e vm₁ => rw [hact] at hrun; cases hrun
    | ok made₁ vm₁ =>
      rw [hact] at hrun
      cases hrun
      refine Accounts.putBack
        (Accounts.mono (accounts_run_ok henv h.putAside huses hcareful hact) ?_)
      intro r
      unfold handleRefs
      simp only [List.flatMap_append, List.count_append]
      omega
  | @throws vm vm' hs op e huses hrun =>
    unfold withPending at hrun
    cases hact : op.run env { vm with currentException := none } with
    | ok made vm₁ => rw [hact] at hrun; cases hrun
    | error e₁ vm₁ =>
      rw [hact] at hrun
      cases hrun
      exact Accounts.putBack (accounts_run_throws henv h.putAside huses hcareful hact)

/-- So does a run. -/
theorem HandleRun.accounts (henv : env.Balanced ctx) {s s' : VM × List JSValue}
    {ops : List HandleOp} (hrun : HandleRun env s ops s') (hcareful : ∀ op ∈ ops, op.Careful)
    (h : Accounts ctx s.1 (handleRefs s.2)) : Accounts ctx s'.1 (handleRefs s'.2) := by
  induction hrun with
  | nil => exact h
  | cons hstep hrest ih =>
    refine ih (fun op hop => hcareful op (List.mem_cons_of_mem _ hop)) ?_
    exact hstep.accounts henv (hcareful _ List.mem_cons_self) h

/-- **Handles and slots own references.** In every state of a run in which `setPropertyString` and
`setPropertyValue` are given only values that are not reference counted, each count is at least the
number of handles that were not freed and of slots that refer to the cell. -/
theorem handles_covered (henv : env.Balanced ctx) {hs hs' : List JSValue} {vm' : VM}
    {ops : List HandleOp} (hstart : Accounts ctx vm (handleRefs hs))
    (hcareful : ∀ op ∈ ops, op.Careful) (hrun : HandleRun env (vm, hs) ops (vm', hs')) :
    HandlesCovered vm' hs' := (hrun.accounts henv hcareful hstart).handlesCovered

/-! ## A started engine -/

/-- The references of the context to the fixed cells. -/
def fixedRefs : List Ref := List.range fixedCells

/-- The bare environment keeps the account. -/
theorem balanced_bare : Env.bare.Balanced fixedRefs where
  fixed _ hr := List.mem_range.2 hr
  primitive _ _ h := by cases h
  call _ _ _ _ _ h _ _ _ := h
  handler _ _ _ _ _ _ _ _ _ _ h := by cases h
  getExotic _ _ _ _ _ h _ _ := h
  setExotic _ _ _ _ _ _ h _ _ _ := h
  toNumber _ _ _ h _ := h
  call_functions _ _ _ vm := .refl vm
  getExotic_functions _ _ _ vm := .refl vm

/-- A started engine has the references of its context only. -/
theorem accounts_bare : Accounts fixedRefs VM.bare [] := by
  intro r _
  by_cases hr : r < 9
  · interval_cases r <;> decide
  · have hrefs : ∀ c ∈ VM.bare.heap, ∀ x ∈ Body.refs c.body, x < 9 := by decide
    have hheld : Memory.held Body.refs VM.bare.heap r = 0 := by
      refine List.sum_eq_zero fun k hk => ?_
      obtain ⟨c, hc, rfl⟩ := List.mem_map.1 hk
      unfold Memory.holds
      split_ifs
      · exact List.count_eq_zero.2 fun hx => hr (hrefs c hc r hx)
      · rfl
    have hctx : fixedRefs.count r = 0 := by
      refine List.count_eq_zero.2 fun hx => hr ?_
      exact (List.mem_range.1 hx).trans (by decide)
    rw [List.drop_zero, hheld, Memory.count_eq_zero_of_le (Nat.le_of_not_lt hr)]
    show ((([] ++ (fixedRefs ++ [])).count r + 0 : ℕ) : ℤ) ≤ 0
    rw [List.nil_append, List.append_nil, hctx]
    rfl

/-- Two objects, the second stored in the first, and its handle freed. -/
def storeAndFree (store : JSValue → JSValue → HandleOp) : List HandleOp :=
  [.make .object, .make .object, store (.object 9) (.object 10), .free (.object 10)]

/-- With `setProperty` the object lives on in its slot. -/
theorem handles_covered_setProperty :
    Env.bare.Balanced fixedRefs ∧ Accounts fixedRefs VM.bare [] ∧
      ∃ vm' hs', HandleRun Env.bare (VM.bare, [])
          (storeAndFree fun a b => .setProperty a (.string [0x78]) b true) (vm', hs') ∧
        HandlesCovered vm' hs' ∧ vm'.heap.slotsTo 10 = 1 := by
  have hrun : ∃ vm' hs', HandleRun Env.bare (VM.bare, [])
      (storeAndFree fun a b => .setProperty a (.string [0x78]) b true) (vm', hs') ∧
      vm'.heap.slotsTo 10 = 1 := by
    refine ⟨_, _, .cons (.returns ?_ rfl) (.cons (.returns ?_ rfl) (.cons (.returns ?_ rfl)
      (.cons (.returns ?_ rfl) .nil))), ?_⟩
    all_goals decide
  obtain ⟨vm', hs', hrun, hslots⟩ := hrun
  have hcareful :
      ∀ op ∈ storeAndFree fun a b => .setProperty a (.string [0x78]) b true, op.Careful := by
    unfold storeAndFree
    simp [HandleOp.Careful]
  have hstart : Accounts fixedRefs VM.bare (handleRefs []) := accounts_bare
  exact ⟨balanced_bare, accounts_bare, vm', hs', hrun,
    handles_covered balanced_bare hstart hcareful hrun, hslots⟩

/-- With `setPropertyString` it is destroyed while a live object refers to it. -/
theorem handles_not_covered :
    ∃ vm' hs', HandleRun Env.bare (VM.bare, [])
        (storeAndFree fun a b => .setPropertyString a [0x78] b) (vm', hs') ∧
      vm'.heap.slotsTo 10 = 1 ∧ Memory.count vm'.heap 10 = 0 ∧ ¬ HandlesCovered vm' hs' := by
  refine ⟨_, _, .cons (.returns ?_ rfl) (.cons (.returns ?_ rfl) (.cons (.returns ?_ rfl)
    (.cons (.returns ?_ rfl) .nil))), ?_, ?_, fun hcov => ?_⟩
  · decide
  · decide
  · decide
  · decide
  · decide
  · decide
  · exact absurd (hcov 10).1 (by decide)

end

end QuickjsDart
