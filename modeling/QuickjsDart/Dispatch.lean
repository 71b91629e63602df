import QuickjsDart.Evolution

/-!
# Dispatch of calls to handlers

A registration takes the next id, puts the handler into `dartHandlerMap` under it, and makes a
function object that carries the id as a JavaScript number. `Dispatch` relates the counter, the map
and the function objects; every step keeps it, so that in every state of a run a function object
reaches the handler it was made for (`run_dispatches`).
-/

namespace QuickjsDart

open Codec Relation

/-- No call is guarded: the registry does not depend on them. -/
def noCall (_ : AsyncCall) : Prop := False

/-- The handler of an id. -/
def handlerOf (vm : VM) (id : ℤ) : Option Handler := (vm.dartHandlerMap.getD []).lookup id

/-- The invariant of the registry. -/
structure Dispatch (vm : VM) : Prop where
  next : vm.nextFuncHandlerId.getD 0 = vm.registrations.length
  entry : ∀ (k : ℕ) (reg : Registration), vm.registrations[k]? = some reg →
    reg.id = (k : ℤ) + 1 ∧ handlerOf vm reg.id = some reg.handler ∧
      ∃ o, vm.heap.obj? reg.func = some o ∧ o.cls = .function (.dart (intValue reg.id))
  fresh : ∀ id, (vm.registrations.length : ℤ) < id → handlerOf vm id = none

/-- What was registered stays so: no entry of the map is replaced, and no registration is
forgotten. -/
structure Extends (vm vm' : VM) : Prop where
  registrations : vm.registrations <+: vm'.registrations
  handlers : ∀ id h, handlerOf vm id = some h → handlerOf vm' id = some h

section

variable {P : AsyncCall → Prop} {vm vm' : VM}

/-! ## One step -/

/-- A state extends itself. -/
theorem Extends.refl (vm : VM) : Extends vm vm := ⟨List.prefix_rfl, fun _ _ h => h⟩

/-- One extension after the other. -/
theorem Extends.trans {vm'' : VM} (h : Extends vm vm') (h' : Extends vm' vm'') : Extends vm vm'' :=
  ⟨h.registrations.trans h'.registrations, fun id g hg => h'.handlers id g (h.handlers id g hg)⟩

/-- A function object stays what it is. -/
theorem Micro.function (hm : Micro P vm vm') {r : Ref} {o : Obj} {kind : FunKind}
    (ho : vm.heap.obj? r = some o) (hcls : o.cls = .function kind) :
    ∃ o', vm'.heap.obj? r = some o' ∧ o'.cls = .function kind := by
  cases hm with
  | @counts h hobj hlen =>
    refine ⟨o, ?_, hcls⟩
    show h.obj? r = some o
    rw [hobj, ho]
  | alloc hb => exact ⟨o, obj?_alloc_of_some ho, hcls⟩
  | @write x q q' hq hx hlike =>
    by_cases hr : r = x
    · subst hr
      cases ho.symm.trans hq
      refine ⟨q', obj?_setObj_eq hq q', ?_⟩
      rcases hlike with heq | ⟨harr, -⟩
      · exact heq.trans hcls
      · rw [hcls] at harr
        cases harr
    · exact ⟨o, obj?_setObj_of_ne hq hr ho, hcls⟩
  | @settle x q q' state state' already already' hq hqcls hx hcls' hst =>
    by_cases hr : r = x
    · subst hr
      cases ho.symm.trans hq
      rw [hcls] at hqcls
      cases hqcls
    · exact ⟨o, obj?_setObj_of_ne hq hr ho, hcls⟩
  | exception e => exact ⟨o, ho, hcls⟩
  | queue jobs => exact ⟨o, ho, hcls⟩
  | register h => exact ⟨o, @obj?_alloc_of_some vm _ _ _ ho, hcls⟩
  | started future => exact ⟨o, obj?_promiseState_of_some ho, hcls⟩

/-- A step changes the registry by a registration only. -/
theorem Micro.registry (hm : Micro P vm vm') :
    (vm'.registrations = vm.registrations ∧ vm'.dartHandlerMap = vm.dartHandlerMap ∧
      vm'.nextFuncHandlerId = vm.nextFuncHandlerId) ∨ ∃ h, vm' = QuickjsDart.register h vm := by
  cases hm with
  | register h => exact .inr ⟨h, rfl⟩
  | _ => exact .inl ⟨rfl, rfl, rfl⟩

/-- A new id goes to the end of the map. -/
theorem putIfAbsent_of_none {id : ℤ} {m : List (ℤ × Handler)} (hid : m.lookup id = none)
    (h : Handler) : putIfAbsent id h m = m ++ [(id, h)] := by
  unfold putIfAbsent
  rw [hid]

/-- An id is found among the old ones, or is the new one. -/
theorem lookup_append_singleton (m : List (ℤ × Handler)) (id i : ℤ) (h : Handler) :
    (m ++ [(id, h)]).lookup i = (m.lookup i).or (if i = id then some h else none) := by
  rw [List.lookup_append]
  congr 1
  by_cases hi : i = id
  · rw [if_pos hi, hi]
    simp
  · have hbeq : (i == id) = false := beq_eq_false_iff_ne.2 hi
    rw [if_neg hi, List.lookup_cons, hbeq]
    rfl

/-- The id of the next registration. -/
theorem Dispatch.nextId (hd : Dispatch vm) (hlen : vm.registrations.length + 1 < 2 ^ 53) :
    int64Succ (vm.nextFuncHandlerId.getD 0) = (vm.registrations.length : ℤ) + 1 := by
  rw [hd.next]
  exact Int64.toInt_ofInt_of_le (by omega) (by omega)

/-- What a registration does to the registry. -/
theorem Dispatch.register_eq (hd : Dispatch vm) (hlen : vm.registrations.length + 1 < 2 ^ 53)
    (h : Handler) :
    (register h vm).registrations
        = vm.registrations ++ [⟨(vm.registrations.length : ℤ) + 1, h, vm.heap.length⟩] ∧
      (register h vm).nextFuncHandlerId = some ((vm.registrations.length : ℤ) + 1) ∧
      (∀ id, handlerOf (register h vm) id = (handlerOf vm id).or
        (if id = (vm.registrations.length : ℤ) + 1 then some h else none)) ∧
      (register h vm).heap.obj? vm.heap.length
        = some (hookObj ((vm.registrations.length : ℤ) + 1)) := by
  have hid := hd.nextId hlen
  have hnone : handlerOf vm ((vm.registrations.length : ℤ) + 1) = none := hd.fresh _ (by omega)
  refine ⟨?_, ?_, fun id => ?_, ?_⟩
  · show vm.registrations ++ [_] = _
    rw [hid]
  · show some (int64Succ _) = _
    rw [hid]
  · show (putIfAbsent (int64Succ (vm.nextFuncHandlerId.getD 0)) h
        (vm.dartHandlerMap.getD [])).lookup id
      = _
    rw [hid, putIfAbsent_of_none hnone, lookup_append_singleton]
    rfl
  · show (vm.alloc (.obj (hookObj (int64Succ (vm.nextFuncHandlerId.getD 0))))).heap.obj? _ = _
    rw [hid, VM.obj?_alloc, if_pos rfl]

/-- A registration keeps the invariant. -/
theorem Dispatch.register (hd : Dispatch vm) (hlen : vm.registrations.length + 1 < 2 ^ 53)
    (h : Handler) : Dispatch (register h vm) := by
  obtain ⟨hregs, hnext, hlookup, hhook⟩ := hd.register_eq hlen h
  have hm : Micro noCall vm (QuickjsDart.register h vm) := .register vm h
  refine ⟨?_, fun k reg hk => ?_, fun id hid => ?_⟩
  · rw [hnext, hregs, List.length_append, List.length_singleton]
    push_cast
    rfl
  · rw [hregs, List.getElem?_append] at hk
    split_ifs at hk with hlt
    · -- an old registration
      obtain ⟨hid, hent, o, ho, hcls⟩ := hd.entry k reg hk
      refine ⟨hid, ?_, hm.function ho hcls⟩
      rw [hlookup, hent]
      rfl
    · -- the new one
      have hk0 : k - vm.registrations.length = 0 := by
        by_contra hne
        rw [List.getElem?_eq_none (by simp; omega)] at hk
        cases hk
      rw [hk0] at hk
      cases hk
      have hkeq : k = vm.registrations.length := by omega
      refine ⟨by rw [hkeq], ?_, _, hhook, rfl⟩
      show handlerOf _ ((vm.registrations.length : ℤ) + 1) = some h
      rw [hlookup, if_pos rfl, hd.fresh _ (by omega)]
      rfl
  · rw [hregs, List.length_append, List.length_singleton] at hid
    rw [hlookup, hd.fresh id (by omega), if_neg (by omega)]
    rfl

/-- One step keeps the invariant, and what was registered. -/
theorem Dispatch.micro (hd : Dispatch vm) (hm : Micro P vm vm')
    (hlen : vm'.registrations.length < 2 ^ 53) : Dispatch vm' ∧ Extends vm vm' := by
  rcases hm.registry with ⟨hregs, hmap, hnext⟩ | ⟨h, rfl⟩
  · have hof : handlerOf vm' = handlerOf vm := by
      unfold handlerOf
      rw [hmap]
    refine ⟨⟨?_, fun k reg hk => ?_, fun id hid => ?_⟩, ⟨?_, fun id h hid => ?_⟩⟩
    · rw [hnext, hregs]
      exact hd.next
    · rw [hregs] at hk
      obtain ⟨hid, hent, o, ho, hcls⟩ := hd.entry k reg hk
      rw [hof]
      exact ⟨hid, hent, hm.function ho hcls⟩
    · rw [hregs] at hid
      rw [hof]
      exact hd.fresh id hid
    · rw [hregs]
    · rw [hof]
      exact hid
  · have hlen' : vm.registrations.length + 1 < 2 ^ 53 := by
      have hadd :
          (QuickjsDart.register h vm).registrations.length = vm.registrations.length + 1 := by
        simp [QuickjsDart.register, newHook]
      omega
    obtain ⟨hregs, -, hlookup, -⟩ := hd.register_eq hlen' h
    refine ⟨hd.register hlen' h, ⟨?_, fun id g hid => ?_⟩⟩
    · rw [hregs]
      exact List.prefix_append _ _
    · rw [hlookup, hid]
      rfl

/-! ## Runs -/

/-- No registration is forgotten. -/
theorem Evolves.registrations (he : Evolves P vm vm') : vm.registrations <+: vm'.registrations := by
  induction he with
  | refl => exact List.prefix_rfl
  | tail _ hm ih =>
    refine ih.trans ?_
    rcases hm.registry with ⟨hregs, -, -⟩ | ⟨h, rfl⟩
    · rw [hregs]
    · exact List.prefix_append _ _

/-- Any computation keeps the invariant, and what was registered. -/
theorem Dispatch.evolves (hd : Dispatch vm) (he : Evolves P vm vm')
    (hlen : vm'.registrations.length < 2 ^ 53) : Dispatch vm' ∧ Extends vm vm' := by
  induction he with
  | refl => exact ⟨hd, .refl vm⟩
  | tail _ hm ih =>
    have hle := (Evolves.registrations (.single hm)).length_le
    obtain ⟨hd', hext⟩ := ih (lt_of_le_of_lt hle hlen)
    obtain ⟨hd'', hext'⟩ := hd'.micro hm hlen
    exact ⟨hd'', hext.trans hext'⟩

/-! ## Calls of function objects -/

/-- The id that `callBackWrapper` reads back is the one that was stored. -/
theorem toInt64_intValue {n : ℤ} (h : |n| < 2 ^ 53) : toInt64 (intValue n) = n := by
  unfold intValue
  split_ifs with hr
  · exact Int32.toInt_ofInt_of_le hr.1 (by omega)
  · show (Int64.ofInt (Binary64.ofInt n).trunc).toInt = n
    rw [Binary64.trunc_ofInt h]
    have := abs_lt.1 h
    exact Int64.toInt_ofInt_of_le (by omega) (by omega)

/-- The handler that `callBackWrapper` finds for the id of a registration. -/
theorem Dispatch.findHandler_eq (hd : Dispatch vm) (hlen : vm.registrations.length < 2 ^ 53)
    {k : ℕ} {reg : Registration} (hk : vm.registrations[k]? = some reg) :
    toInt64 (intValue reg.id) = reg.id ∧ findHandler vm (intValue reg.id) = .ok reg.handler := by
  obtain ⟨hid, hent, -⟩ := hd.entry k reg hk
  have hlt : k < vm.registrations.length := (List.getElem?_eq_some_iff.1 hk).1
  have hback : toInt64 (intValue reg.id) = reg.id :=
    toInt64_intValue (by rw [hid, abs_lt]; omega)
  refine ⟨hback, ?_⟩
  unfold findHandler
  unfold handlerOf at hent
  cases hmap : vm.dartHandlerMap with
  | none =>
    rw [hmap] at hent
    cases hent
  | some m =>
    rw [hmap, Option.getD_some] at hent
    dsimp only
    rw [hback, hent]

/-- A function object has the id of one registration. -/
theorem Dispatch.registered (hd : Dispatch vm) (hlen : vm.registrations.length < 2 ^ 53) :
    Registered vm := by
  intro g hg g' hg' hfunc
  obtain ⟨k, hk⟩ := List.mem_iff_getElem?.1 hg
  obtain ⟨k', hk'⟩ := List.mem_iff_getElem?.1 hg'
  obtain ⟨-, hent, o, ho, hcls⟩ := hd.entry k g hk
  obtain ⟨-, hent', o', ho', hcls'⟩ := hd.entry k' g' hk'
  rw [← hfunc, ho] at ho'
  cases ho'
  rw [hcls] at hcls'
  injection hcls' with hkind
  injection hkind with hdata
  have hid : g.id = g'.id := by
    rw [← (hd.findHandler_eq hlen hk).1, hdata, (hd.findHandler_eq hlen hk').1]
  rw [hid, hent'] at hent
  exact (Option.some_inj.1 hent).symm

end

/-! ## Operations -/

/-- What the program does with an engine. Conversions may throw midway, and calls run scripts and
handlers, which do the same things again. -/
inductive EngineOp where
  | createNewFunction (name : PropName) (h : Handler) (toVal : Option JSValue)
  /-- `JSValue.addCallback`, on a value with an engine or not. -/
  | addCallback (this : JSValue) (attached : Bool) (name : PropName) (h : Handler)
  | toJSVal (x : DartVal)
  | createJSArray (elems : List DartVal)
  | createJSObject (entries : List (Option Utf16 × DartVal))
  | setProperty (this : JSValue) (name : PropName) (v : JSValue) (throwFlag : Bool)
  | setPropertyString (this : JSValue) (name : Utf16) (v : JSValue)
  | setPropertyValue (this : JSValue) (name : Utf16) (v : JSValue) (throwFlag : Bool)
  | callJS (f : JSValue) (params : Option (List JSValue))

variable (env : Env)

/-- The state after an operation, whether it returned or threw. -/
def EngineOp.exec : EngineOp → VM → VM
  | createNewFunction name h toVal, vm =>
    endState (QuickjsDart.createNewFunction env name h toVal vm)
  | addCallback this attached name h, vm =>
    if attached then endState (QuickjsDart.createNewFunction env name h (some this) vm) else vm
  | toJSVal x, vm => endState (QuickjsDart.toJSVal env x vm)
  | createJSArray elems, vm => endState (QuickjsDart.createJSArray env elems vm)
  | createJSObject entries, vm => endState (QuickjsDart.createJSObject env entries vm)
  | setProperty this name v throwFlag, vm =>
    endState (QuickjsDart.setProperty env this name v throwFlag vm)
  | setPropertyString this name v, vm => endState (QuickjsDart.setPropertyString env this name v vm)
  | setPropertyValue this name v throwFlag, vm =>
    endState (QuickjsDart.setPropertyValue env this name v throwFlag vm)
  | callJS f params, vm => endState (QuickjsDart.callJS env f params vm)

/-- The values that an operation is given. -/
def EngineOp.values : EngineOp → List JSValue
  | createNewFunction _ _ toVal => toVal.toList
  | addCallback this _ _ _ => [this]
  | toJSVal _ => []
  | createJSArray _ => []
  | createJSObject _ => []
  | setProperty this _ v _ => [this, v]
  | setPropertyString this _ v => [this, v]
  | setPropertyValue this _ v _ => [this, v]
  | callJS _ params => params.getD []

/-- An engine without registrations and calls. -/
structure Started (vm : VM) : Prop where
  registrations : vm.registrations = []
  next : vm.nextFuncHandlerId = none
  handlers : vm.dartHandlerMap = none
  calls : vm.calls = []
  inHeap : ∀ r o p, vm.heap.obj? r = some o → o.Resolves p → p < vm.heap.length

section

variable {env} {vm : VM}

/-- A started engine has no calls in flight. -/
theorem Started.guards (hs : Started vm) (P : AsyncCall → Prop) : Guards P vm := by
  refine ⟨fun c hc => ?_, fun c hc => ?_, ?_, hs.inHeap⟩
  · obtain ⟨hmem, -, -⟩ := hc
    rw [hs.calls] at hmem
    cases hmem
  · rw [hs.calls] at hc
    cases hc
  · rw [hs.calls]
    exact .nil

/-- No value is private where no call is guarded. -/
theorem outside_false (vm : VM) (v : JSValue) : Outside noCall vm v := by
  cases v with
  | object r => exact ⟨fun c hc _ => hc.2.2, .inr fun _ => id⟩
  | _ => exact trivial

/-- An operation leaves no ledger of states, where code may work on the values that it is given. -/
theorem Registry.exec {D : Registry env} (hg : D.Good [] vm)
    (hglobal : D.Held [] vm (.object globalObject)) {op : EngineOp}
    (hvalues : ∀ v ∈ op.values, D.Held [] vm v)
    (hcallee : ∀ f params, op = .callJS f params → D.Callee [] vm f) :
    D.Lost vm (op.exec env vm) := by
  have hgiven : ∀ v ∈ op.values, D.Given vm v := fun v hv => D.given (D.target hg (hvalues v hv))
  have hfirst : ∀ {this : JSValue} {vs : List JSValue}, this ∈ this :: vs := List.mem_cons_self
  have hsecond : ∀ {this v : JSValue}, v ∈ [this, v] := List.mem_cons_of_mem _ List.mem_cons_self
  cases op with
  | createNewFunction name h toVal =>
    refine (D.createNewFunction hg name h ?_).lost
    cases toVal with
    | none => exact hglobal
    | some v => exact hvalues v hfirst
  | addCallback this attached name h =>
    cases attached with
    | true => exact D.lost ((D.conversion []).handler h hg (hvalues this hfirst)).endState
    | false => exact D.lost (D.refl hg)
  | toJSVal x => exact D.lost ((D.conversion []).toJSVal x hg).endState
  | createJSArray elems => exact D.lost ((D.conversion []).createJSArray elems hg).endState
  | createJSObject entries => exact D.lost ((D.conversion []).createJSObject entries hg).endState
  | setProperty this name v throwFlag =>
    exact (D.setProperty hg (hvalues this hfirst) (hgiven v hsecond) name).lost
  | setPropertyString this name v =>
    exact (D.setTaken (D.anyGood hg) (hvalues this hfirst) (hgiven v hsecond) name).lost
  | setPropertyValue this name v throwFlag =>
    exact (D.setTaken (D.anyGood hg) (hvalues this hfirst) (hgiven v hsecond) name).lost
  | callJS f params => exact (D.callJS hg (hcallee f params rfl) hvalues).lost

/-- An operation evolves the state. -/
theorem EngineOp.evolves (henv : env.Confined noCall) (op : EngineOp)
    (hg : Guards noCall vm) : Evolves noCall vm (op.exec env vm) :=
  Registry.exec (D := evolution henv) hg (outside_false vm (.object globalObject))
    (fun v _ => outside_false vm v) fun f _ _ => outside_false vm f

/-- A registration of the program is noted with its own handler. -/
theorem EngineOp.registers (henv : env.Confined noCall) (hg : Guards noCall vm)
    {name : PropName} (hname : name ≠ .null) (h : Handler) (toVal : Option JSValue) :
    ∃ id func, vm.registrations ++ [⟨id, h, func⟩] <+:
      ((EngineOp.createNewFunction name h toVal).exec env vm).registrations := by
  obtain ⟨vm₁, -, hregs, hend⟩ :=
    (evolution henv).createNewFunction_registers (show (evolution henv).Good [] vm from hg) hname h
      (outside_false vm _)
  rw [← hregs]
  exact ⟨int64Succ (vm₁.nextFuncHandlerId.getD 0), vm₁.heap.length,
    Evolves.registrations hend.lost⟩

end

end QuickjsDart
