import QuickjsDart.Conversion
import QuickjsDart.Ledger

/-!
# Walks over assignments, promises, calls and registrations

The rules of an `Assigning` ledger say what it makes of the steps of assignments, those of a
`Bridge` what it makes of definitions, those of a `Discipline` what it makes of promises and of
calls, and those of a `Registry` what it makes of registrations. Here are the walks over
`JS_SetPropertyInternal`, `JS_DefinePropertyValue`, `js_promise_resolve_function_call` and
`JS_Call`, and over what the bridge does with them, for every ledger with the rules.
-/

namespace QuickjsDart

open Codec

/-! ## Assignments -/

/-- What a ledger has to say about assignments. -/
structure Assigning (env : Env) extends Calling env where
  /-- A value that code may work on as long as it runs. -/
  Held : List Ref → VM → JSValue → Prop
  /-- A key of a property. -/
  Key : PropKey → Prop
  held : ∀ {start own own' vm vm' v}, Held own vm v → To start vm own' vm' → own ⊆ own' →
    Held own' vm' v
  scalarHeld : ∀ {own vm v}, v.refs = [] → Held own vm v
  target : ∀ {own vm v}, Good own vm → Held own vm v → Target vm v
  cut : ∀ {own vm r o oldLen gone} curLen, Good own vm → Held own vm (.object r) →
    vm.heap.obj? r = some o → o.cls = .array oldLen →
    (∀ p ∈ o.props, gone p.1 = true → p.2.flags.configurable = true) →
    To own vm own (vm.cutObj r o curLen gone)
  add : ∀ {own vm r o key v flags}, Good (v.refs ++ own) vm → Held own vm (.object r) →
    Key key → vm.heap.obj? r = some o → o.getOwn key = none → o.extensible = true →
    To (v.refs ++ own) vm own (vm.setObj r (o.putOwn key (.data v flags)))
  assign : ∀ {own vm r o key v old flags}, Good (v.refs ++ own) vm → Held own vm (.object r) →
    vm.heap.obj? r = some o → findSlot key o.props = some (.data old flags) →
    flags.writable = true →
    To (v.refs ++ own) vm (old.refs ++ own) (vm.setObj r (o.putOwn key (.data v flags)))
  setExotic : ∀ {own vm r v this} key, Good own vm → Cell vm r → Given vm v → Target vm this →
    toLedger.Ends own own noRefs vm (env.setExotic r key v this vm)
  toNumber : ∀ {own vm v}, Good own vm → Given vm v →
    toLedger.Ends own own JSValue.refs vm (env.toNumber v vm)

namespace Assigning

variable {env : Env} {D : Assigning env} {own : List Ref} {vm : VM} {this v : JSValue}
  {key : PropKey} {throwFlag : Bool}

/-- The references of the caller are as good with those of a value. -/
theorem targetOwned (hg : D.Good (v.refs ++ own) vm) (hthis : D.Held own vm this) :
    D.Target vm this := D.target (D.good_right hg) hthis

/-- `call_setter` takes the reference to its value. -/
theorem callSetter (hg : D.Good (v.refs ++ own) vm) {setter : Option Ref}
    (hset : ∀ f, setter = some f → D.Cell vm f) (hthis : D.Target vm this) (hv : D.Given vm v) :
    D.Ends (v.refs ++ own) own noRefs vm (callSetter env setter this v throwFlag vm) := by
  unfold QuickjsDart.callSetter
  cases setter with
  | none => exact Ledger.Ends.throwOrFalse (D.free hg) throwFlag _
  | some f =>
    have hargs : ∀ a ∈ [v], D.Given vm a := fun a ha => List.mem_singleton.1 ha ▸ hv
    have hcall := D.callAccessor hg (hset f rfl) hthis hargs
    dsimp only
    cases hrun : QuickjsDart.callAccessor env f this [v] vm with
    | ok ret vm₁ =>
      rw [hrun] at hcall
      have hfree : D.To (v.refs ++ own) vm (ret.refs ++ own) (vm₁.free v) := by
        refine D.thenFree hg hcall fun r => ?_
        simp only [List.count_append]
        omega
      exact D.thenFree hg hfree fun r => le_rfl
    | error e vm₁ =>
      rw [hrun] at hcall
      exact hcall.free_error hg

/-- `JS_ToArrayLengthFree` takes the reference to its value. -/
theorem toArrayLength (hg : D.Good (v.refs ++ own) vm) (hv : D.Given vm v) :
    D.Ends (v.refs ++ own) own noRefs vm (toArrayLength env v vm) := by
  unfold QuickjsDart.toArrayLength
  split_ifs
  · have hnum := D.toNumber hg hv
    cases hrun : env.toNumber v vm with
    | error e vm₁ =>
      rw [hrun] at hnum
      exact hnum.free_error hg
    | ok n vm₁ =>
      rw [hrun] at hnum
      have hfree : D.To (v.refs ++ own) vm (n.refs ++ own) (vm₁.free v) := by
        refine D.thenFree hg hnum fun r => ?_
        simp only [List.count_append]
        omega
      have hboth := D.thenFree hg hfree fun r => le_rfl
      dsimp only
      cases arrayLength? n with
      | none => exact hboth
      | some len => exact hboth
  · cases arrayLength? v with
    | none => exact D.free hg
    | some len => exact D.free hg

/-- Elements are deleted from the end, and the new length is stored. -/
theorem cutArray (hg : D.Good own vm) {r : Ref} (hr : D.Held own vm (.object r)) (len : ℕ) :
    D.Ends own own noRefs vm (cutArray env r len throwFlag vm) := by
  rcases cutArray_cases env r len throwFlag vm with
    heq | ⟨o, oldLen, curLen, gone, ho, hcls, hgone, hend⟩
  · rw [heq]
    exact D.lost (D.refl hg)
  · have hcut := D.cut curLen hg hr ho hcls hgone
    rcases hend with heq | heq
    · rw [heq]
      exact hcut
    · rw [heq]
      exact Ledger.Ends.throwOrFalse hcut throwFlag _

/-- `set_array_length`. -/
theorem setArrayLength (hg : D.Good (v.refs ++ own) vm) {r : Ref}
    (hr : D.Held own vm (.object r)) (hv : D.Given vm v) :
    D.Ends (v.refs ++ own) own noRefs vm (setArrayLength env r v throwFlag vm) := by
  have hlen := D.toArrayLength hg hv
  unfold QuickjsDart.setArrayLength
  cases hrun : QuickjsDart.toArrayLength env v vm with
  | error e vm₁ =>
    rw [hrun] at hlen
    exact hlen.raised
  | ok len vm₁ =>
    rw [hrun] at hlen
    have hto : D.To (v.refs ++ own) vm own vm₁ := hlen
    have hr₁ := D.held hr hto (List.Subset.refl own)
    exact Ledger.Ends.after hto (D.cutArray (D.good hg hto) hr₁ len)

/-- What an assigning walk finds are cells that code may come to. -/
def Finds (D : Assigning env) (vm : VM) : SetTarget → Prop
  | .setter f => ∀ r, f = some r → D.Cell vm r
  | .exotic r => D.Cell vm r
  | _ => True

/-- The walk stays among the cells that code may come to. The induction is on its fuel. -/
theorem finds_setWalk (hg : D.Good own vm) (fast : Ref → Bool) (key : PropKey) (fuel : ℕ)
    {start : Option Ref} (hstart : ∀ r, start = some r → D.Cell vm r) :
    D.Finds vm (setWalk vm.heap fast key fuel start) := by
  induction fuel generalizing start with
  | zero => trivial
  | succ fuel ih =>
    cases start with
    | none => trivial
    | some r =>
      have hr := hstart r rfl
      rw [setWalk]
      cases ho : vm.heap.obj? r with
      | none => trivial
      | some o =>
        have hnext := ih fun p hp => D.proto hg ho hr hp
        dsimp only
        split
        · exact hr
        · split
          · next g s fl hslot =>
            rintro f rfl
            exact D.slot hg ho hr hslot (List.mem_append_right _ List.mem_cons_self)
          · split_ifs
            · trivial
            · exact hnext
            · trivial
          · exact hnext

/-- What an assignment does with what its walk found takes the reference to the value. -/
theorem setAfterWalk (hg : D.Good (v.refs ++ own) vm) (hthis : D.Target vm this)
    (hv : D.Given vm v) {target : SetTarget} (htarget : D.Finds vm target) (hkey : D.Key key)
    {site : Option (Ref × Obj)}
    (hsite : ∀ r o, site = some (r, o) →
      D.Held own vm (.object r) ∧ vm.heap.obj? r = some o ∧ o.getOwn key = none) :
    D.Ends (v.refs ++ own) own noRefs vm
      (setAfterWalk env target this site key v throwFlag vm) := by
  have hrefused : ∀ m, D.Ends (v.refs ++ own) own noRefs vm
      (throwOrFalse throwFlag m (vm.free v)) := fun m =>
    Ledger.Ends.throwOrFalse (D.free hg) throwFlag m
  unfold QuickjsDart.setAfterWalk
  cases target with
  | readOnly => exact hrefused _
  | setter s => exact D.callSetter hg htarget hthis hv
  | exotic p =>
    have hset := D.setExotic key hg htarget hv hthis
    dsimp only
    cases hrun : env.setExotic p key v this vm with
    | ok b vm₁ =>
      rw [hrun] at hset
      exact D.thenFree hg hset fun r => le_rfl
    | error e vm₁ =>
      rw [hrun] at hset
      exact hset.free_error hg
  | absent =>
    cases site with
    | none => exact hrefused _
    | some p =>
      obtain ⟨hheld, ho, hnone⟩ := hsite p.1 p.2 rfl
      dsimp only
      split_ifs with hext
      · exact D.add hg hheld hkey ho hnone hext
      · exact hrefused _

/-- `JS_SetPropertyInternal` takes the reference to its value. -/
theorem jsSetPropertyInternal (hg : D.Good (v.refs ++ own) vm) (hthis : D.Held own vm this)
    (hv : D.Given vm v) (hkey : D.Key key) :
    D.Ends (v.refs ++ own) own noRefs vm (jsSetPropertyInternal env this key v throwFlag vm) := by
  have htarget := D.targetOwned hg hthis
  have hprimitive : D.Ends (v.refs ++ own) own noRefs vm (QuickjsDart.setAfterWalk env
      (setWalk vm.heap (env.fastArray vm.heap) key (chainFuel vm.heap) (env.primitiveProto this))
      this none key v throwFlag vm) :=
    D.setAfterWalk hg htarget hv (finds_setWalk hg _ key _ fun p hp => D.primitive hg hp) hkey
      fun r o heq => by cases heq
  unfold QuickjsDart.jsSetPropertyInternal
  cases this with
  | null => exact D.free hg
  | undefined => exact D.free hg
  | object r =>
    have hr := D.cell htarget (List.mem_singleton_self r)
    dsimp only
    cases ho : vm.heap.obj? r with
    | none => exact D.lost (D.refl hg)
    | some o =>
      dsimp only
      cases hget : o.getOwn key with
      | none =>
        have hsite : ∀ r' o', some (r, o) = some (r', o') →
            D.Held own vm (.object r') ∧ vm.heap.obj? r' = some o' ∧ o'.getOwn key = none := by
          rintro r' o' ⟨⟩
          exact ⟨hthis, ho, hget⟩
        have hexotic : D.Finds vm (.exotic r) := hr
        dsimp only
        split
        · exact D.setAfterWalk hg htarget hv hexotic hkey hsite
        · exact D.setAfterWalk hg htarget hv
            (finds_setWalk hg _ key _ fun p hp => D.proto hg ho hr hp) hkey hsite
      | some slot =>
        cases slot with
        | accessor g s fl =>
          refine D.callSetter hg (fun f hf => ?_) htarget hv
          rw [hf] at hget
          exact D.slot hg ho hr hget (List.mem_append_right _ List.mem_cons_self)
        | data old fl =>
          dsimp only
          split_ifs with hw hlen
          · exact D.setArrayLength hg hthis hv
          · rw [getOwn_eq_findSlot hlen] at hget
            exact D.thenFree hg (D.assign hg hthis ho hget hw) fun r => le_rfl
          · exact Ledger.Ends.throwOrFalse (D.free hg) throwFlag _
  | _ => exact hprimitive

/-- The C function `setProp` keeps the reference of its caller. -/
theorem setProp (hg : D.Good own vm) (hthis : D.Held own vm this)
    (hcell : ∀ r ∈ v.refs, D.Cell vm r) (hv : D.Given (vm.dup v) v) (hkey : D.Key key) :
    D.Ends own own noRefs vm (setProp env this key v throwFlag vm) := by
  have hdup := D.dup hg hcell
  have hset : D.Ends (v.refs ++ own) own noRefs (vm.dup v)
      (QuickjsDart.jsSetPropertyInternal env this key v throwFlag (vm.dup v)) :=
    D.jsSetPropertyInternal (D.good hg hdup)
      (D.held hthis (D.keep _ hg hdup) (List.Subset.refl own)) hv hkey
  unfold QuickjsDart.setProp
  cases hrun : QuickjsDart.jsSetPropertyInternal env this key v throwFlag (vm.dup v) with
  | ok b vm₁ =>
    rw [hrun] at hset
    exact D.trans hdup hset
  | error e vm₁ =>
    rw [hrun] at hset
    exact (Ledger.Ends.after hdup hset).raised

end Assigning

/-! ## The bridge -/

/-- What a ledger has to say about the assignments and definitions of the bridge, where it is about
states only: nothing that is not lost depends on who owns which references. -/
structure Bridge (env : Env) extends Assigning env where
  anyCell : ∀ vm r, Cell vm r
  givenKept : ∀ {own own' vm vm' v}, Given vm v → To own vm own' vm' → Given vm' v
  keyOfName : ∀ name : PropName, Key name.key
  keyOfText : ∀ s, Key (.ofString s)
  redefine : ∀ {own vm r o key v slot} flags, Good (v.refs ++ own) vm →
    Held own vm (.object r) → vm.heap.obj? r = some o → findSlot key o.props = some slot →
    slot.flags.configurable = true →
    To (v.refs ++ own) vm (slot.refs ++ own) (vm.setObj r (o.putOwn key (.data v flags)))
  defineExotic : ∀ {own vm v} r key flags, Good own vm → Given vm v →
    toLedger.Ends own own noRefs vm (env.defineExotic r key v flags vm)

namespace Bridge

variable {env : Env} {D : Bridge env} {own : List Ref} {vm : VM} {this v : JSValue}
  {key : PropKey} {throwFlag : Bool}

/-- A value that code may work on stays one. -/
theorem heldKept {vm' : VM} (hthis : D.Held own vm this) (h : D.To own vm own vm') :
    D.Held own vm' this := D.held hthis h (List.Subset.refl own)

/-- The handle of a name is made first. For a text that is a string of its own. -/
theorem handle (hg : D.Good own vm) (name : PropName) :
    ∃ w vm', name.handle vm = .ok w vm' ∧ D.To own vm own vm' ∧
      vm'.registrations = vm.registrations := by
  have hleaf : D.To own vm own (vm.alloc .leaf) := D.keep [vm.heap.length] hg (D.leaf hg)
  cases name with
  | int n => exact ⟨_, _, rfl, D.refl hg, rfl⟩
  | string s => exact ⟨_, _, rfl, hleaf, rfl⟩
  | null => exact ⟨_, _, rfl, hleaf, rfl⟩

/-- `JSValue.setProperty`. -/
theorem setProperty (hg : D.Good own vm) (hthis : D.Held own vm this) (hv : D.Given vm v)
    (name : PropName) :
    D.DartEnds own own noRefs vm (setProperty env this name v throwFlag vm) := by
  obtain ⟨w, vm₁, hhandle, hto, -⟩ := D.handle hg name
  have hg₁ := D.good hg hto
  have hv₁ : D.Given (vm₁.dup v) v :=
    D.givenKept hv (D.trans hto (D.dup hg₁ fun r _ => D.anyCell vm₁ r))
  unfold QuickjsDart.setProperty
  rw [bind_of_ok hhandle]
  exact Ledger.DartEnds.after hto (D.ffi hg₁ (D.setProp hg₁ (D.heldKept hthis hto)
    (fun r _ => D.anyCell vm₁ r) hv₁ (D.keyOfName name)) rfl)

/-- The C functions that take the reference of the value, of which Dart knows nothing. -/
theorem setTaken (hg : D.Good (v.refs ++ own) vm) (hthis : D.Held own vm this) (hv : D.Given vm v)
    (name : Utf16) : D.DartEnds (v.refs ++ own) own noRefs vm
      (setPropertyValue env this name v throwFlag vm) :=
  Ledger.DartEnds.map (D.ffi hg (D.jsSetPropertyInternal hg hthis hv (D.keyOfText _)) rfl)
    fun _ => rfl

/-- `JS_DefinePropertyValue` takes the reference to its value. -/
theorem jsDefinePropertyValue (hg : D.Good (v.refs ++ own) vm) (hthis : D.Held own vm this)
    (hv : D.Given vm v) (hkey : D.Key key) (flags : Flags) :
    D.Ends (v.refs ++ own) own noRefs vm (jsDefinePropertyValue env this key v flags vm) := by
  have hrefused : D.Ends (v.refs ++ own) own noRefs vm (.ok false (vm.free v)) := D.free hg
  unfold QuickjsDart.jsDefinePropertyValue
  cases this with
  | object r =>
    dsimp only
    cases ho : vm.heap.obj? r with
    | none => exact D.lost (D.refl hg)
    | some o =>
      dsimp only
      cases hcls : o.cls with
      | exotic id =>
        have hdef := D.defineExotic r key flags hg hv
        dsimp only
        cases hrun : env.defineExotic r key v flags vm with
        | ok b vm₁ =>
          rw [hrun] at hdef
          exact D.thenFree hg hdef fun r => le_rfl
        | error e vm₁ =>
          rw [hrun] at hdef
          exact hdef.free_error hg
      | _ =>
        dsimp only
        cases hget : o.getOwn key with
        | none =>
          dsimp only
          split_ifs with hext
          · exact D.add hg hthis hkey ho hget hext
          · exact hrefused
        | some slot =>
          dsimp only
          split_ifs with hconf
          · have hput := D.redefine flags hg hthis ho
              (findSlot_of_configurable hget hconf) hconf
            exact D.trans hput (D.release (D.good hg hput))
          · exact hrefused
  | _ => exact D.free hg

end Bridge

/-! ## Promises -/

/-- What a ledger has to say about promises and calls. -/
structure Discipline (env : Env) extends Reading env, Assigning env where
  /-- A function that code may call. -/
  Callee : List Ref → VM → JSValue → Prop
  /-- A promise that code may settle. -/
  Prom : List Ref → VM → Ref → Prop
  error : ∀ {own vm}, Good own vm →
    To own vm (vm.heap.length :: own) (vm.alloc (.obj (.fresh .error errorPrototype)))
  callee : ∀ {own vm r}, Good own vm → Callee own vm (.object r) → Cell vm r
  promOf : ∀ {own vm r o p isReject}, Good own vm → Callee own vm (.object r) →
    vm.heap.obj? r = some o → o.cls = .function (.resolving p isReject) → Prom own vm p
  promKept : ∀ {own own' vm vm' p}, Prom own vm p → own ⊆ own' → vm'.calls = vm.calls →
    (∀ r o, vm.heap.obj? r = some o → vm'.heap.obj? r = some o) →
    vm.heap.length ≤ vm'.heap.length → Prom own' vm' p
  promRead : ∀ {own vm this p} key, Good own vm → Held own vm this → Prom own vm p →
    Prom own (endState (jsGetProperty env this key vm)) p
  flag : ∀ {own vm p o state}, Good own vm → Prom own vm p → vm.heap.obj? p = some o →
    o.cls = .promise state false →
    To own vm own (vm.setObj p { o with cls := .promise state true }) ∧
      Prom own (vm.setObj p { o with cls := .promise state true }) p
  settle : ∀ {own vm p v} isReject, Good own vm → Prom own vm p → (∀ r ∈ v.refs, Cell vm r) →
    To own vm own (fulfillOrRejectPromise p v isReject vm)
  thenable : ∀ {own vm p resolution thenFunc}, Good (thenFunc.refs ++ own) vm → Prom own vm p →
    Held own vm resolution → To (thenFunc.refs ++ own) vm own
      (((((vm.dup (.object p)).dup resolution).dup thenFunc).enqueue
        (.thenable p resolution thenFunc)).free thenFunc)
  createPromise : ∀ {own vm}, Good own vm →
    toLedger.Ends own own JSValue.refs vm (createPromise vm)
  handler : ∀ {own vm h this args}, Good own vm → Target vm this →
    (∀ a ∈ args.getD [], Given vm a) →
    (∀ v vm', env.handler h this args vm = .ok v vm' → To own vm (v.refs ++ own) vm') ∧
      Lost vm (endState (env.handler h this args vm))
  raise : ∀ {own vm}, Good own vm → toLedger.Ends own own JSValue.refs vm
    (.error (vm.currentException.getD (.value .undefined)) { vm with currentException := none })

namespace Discipline

variable {env : Env} {D : Discipline env} {own : List Ref} {vm : VM} {this v : JSValue}

/-- The value of an exception is the caller's. -/
theorem jsGetException {e : JSFault} (hg : D.Good (e.refs ++ own) vm) (he : e ≠ .crash) :
    D.To (e.refs ++ own) vm ((jsGetException e vm).1.refs ++ own) (jsGetException e vm).2 := by
  cases e with
  | crash => exact absurd rfl he
  | error m => exact D.error hg
  | value v => exact D.refl hg

/-- A promise is rejected with an exception, which is released then. -/
theorem rejectWith {e : JSFault} (hg : D.Good (e.refs ++ own) vm) (he : e ≠ .crash) {p : Ref}
    (hp : D.Prom own vm p) :
    D.To (e.refs ++ own) vm own ((fulfillOrRejectPromise p (QuickjsDart.jsGetException e vm).1 true
      (QuickjsDart.jsGetException e vm).2).free (QuickjsDart.jsGetException e vm).1) := by
  have hexc := D.jsGetException hg he
  have hg₁ := D.good hg hexc
  have hp₁ : D.Prom ((QuickjsDart.jsGetException e vm).1.refs ++ own)
      (QuickjsDart.jsGetException e vm).2 p := by
    cases e with
    | crash => exact absurd rfl he
    | value v =>
      exact D.promKept hp (List.subset_append_right _ _) rfl (fun _ _ ho => ho) le_rfl
    | error m =>
      refine D.promKept hp (List.subset_append_right _ _) rfl
        (fun _ _ ho => obj?_alloc_of_some ho) ?_
      rw [show (QuickjsDart.jsGetException (.error m) vm).2
        = vm.alloc (.obj (.fresh .error errorPrototype)) from rfl, VM.length_alloc]
      exact Nat.le_succ _
  have hsettle := D.settle true hg₁ hp₁ fun r hr =>
    D.owned hg₁ (List.mem_append_left _ hr)
  exact D.trans (D.trans hexc hsettle) (D.free (D.good hg₁ hsettle))

/-- A promise follows its resolution: it is rejected, settled, or left to a thenable job. -/
theorem resolvePromise (hg : D.Good own vm) {p : Ref} (hp : D.Prom own vm p) (isReject : Bool)
    (hv : D.Held own vm v) :
    D.Ends own own JSValue.refs vm (resolvePromise env p isReject v vm) := by
  have htarget := D.target hg hv
  have hsettle : ∀ isReject, D.To own vm own (fulfillOrRejectPromise p v isReject vm) := fun b =>
    D.settle b hg hp fun r hr => D.cell htarget hr
  unfold QuickjsDart.resolvePromise
  split
  · next r =>
    split_ifs
    · exact D.rejectWith (e := .error "promise self resolution") hg (by simp) hp
    · have hget := D.jsGetProperty hg htarget (.name thenName)
      have hread := D.promRead (.name thenName) hg hv hp
      split
      · next vm₁ hrun =>
        rw [hrun] at hget
        exact hget
      · next e vm₁ hne hrun =>
        rw [hrun] at hget hread
        have hto := hget.raises hne
        exact D.trans hto (D.rejectWith (D.good hg hto) hne hread)
      · next thenFunc vm₁ hrun =>
        rw [hrun] at hget hread
        have hto : D.To own vm (thenFunc.refs ++ own) vm₁ := hget
        have hg₁ := D.good hg hto
        have hv₁ := D.held hv (D.keep _ hg hto) (List.Subset.refl own)
        split_ifs
        · exact D.trans hto (D.thenable hg₁ hread hv₁)
        · have hfree := D.trans hto (D.free hg₁)
          have hg₂ := D.good hg hfree
          have hp₂ : D.Prom own (vm₁.free thenFunc) p :=
            D.promKept hread (List.Subset.refl own) rfl
              (fun r o ho => (VM.obj?_free vm₁ thenFunc r).trans ho)
              (Heap.length_freeValue vm₁.heap thenFunc).ge
          exact D.trans hfree (D.settle false hg₂ hp₂ fun r hr =>
            D.cell (D.target hg₂ (D.held hv hfree (List.Subset.refl own))) hr)
  · exact hsettle isReject

/-- A missing argument is `undefined`, on which code may work. -/
theorem held_headD {args : List JSValue} (hargs : ∀ a ∈ args, D.Held own vm a) :
    D.Held own vm (args.headD .undefined) := by
  cases args with
  | nil => exact D.scalarHeld rfl
  | cons a args => exact hargs a List.mem_cons_self

/-- `js_promise_resolve_function_call`. -/
theorem resolveFunctionCall (hg : D.Good own vm) {p : Ref} (hp : D.Prom own vm p)
    (isReject : Bool) {args : List JSValue} (hargs : ∀ a ∈ args, D.Held own vm a) :
    D.Ends own own JSValue.refs vm (resolveFunctionCall env p isReject args vm) := by
  unfold QuickjsDart.resolveFunctionCall
  cases ho : vm.heap.obj? p with
  | none => exact D.refl hg
  | some o =>
    dsimp only
    split
    · next state hcls =>
      obtain ⟨hflag, hp₁⟩ := D.flag hg hp ho hcls
      exact Ledger.Ends.after hflag (D.resolvePromise (D.good hg hflag) hp₁ isReject
        (D.held (held_headD hargs) hflag (List.Subset.refl own)))
    · exact D.refl hg

/-! ## Calls -/

/-- `invoke_dart_callback` finds the handler by its id, and gives what the handler gives. -/
theorem invokeDartCallback (hg : D.Good own vm) (hthis : D.Target vm this)
    {args : List JSValue} (hargs : ∀ a ∈ args, D.Given vm a) (data : JSValue) :
    D.Ends own own JSValue.refs vm (invokeDartCallback env this args data vm) := by
  have hwrap : (∀ v vm', callBackWrapper env this args data vm = .ok v vm' →
      D.To own vm (v.refs ++ own) vm') ∧
      D.Lost vm (endState (callBackWrapper env this args data vm)) := by
    unfold callBackWrapper
    cases findHandler vm data with
    | error e => exact ⟨fun v vm' h => (by cases h), D.lost (D.refl hg)⟩
    | ok h =>
      refine D.handler hg hthis fun a ha => hargs a ?_
      cases args with
      | nil => exact ha
      | cons b args => exact ha
  unfold QuickjsDart.invokeDartCallback
  cases hrun : callBackWrapper env this args data vm with
  | error e vm₁ =>
    rw [hrun] at hwrap
    exact hwrap.2
  | ok v vm₁ =>
    have hto := hwrap.1 v vm₁ hrun
    cases v with
    | exception => exact Ledger.Ends.after hto (D.raise (D.good hg hto))
    | _ => exact hto

/-- **`JS_Call` gives a reference**, and takes none of those to the function and its arguments. -/
theorem jsCall (hg : D.Good own vm) {f : JSValue} (hf : D.Callee own vm f)
    (hthis : D.Target vm this) {args : List JSValue} (hargs : ∀ a ∈ args, D.Held own vm a) :
    D.Ends own own JSValue.refs vm (jsCall env f this args vm) := by
  have hgiven : ∀ a ∈ args, D.Given vm a := fun a ha => D.given (D.target hg (hargs a ha))
  unfold QuickjsDart.jsCall
  cases f with
  | object r =>
    have hr := D.callee hg hf
    dsimp only
    cases ho : vm.heap.obj? r with
    | none => exact D.lost (D.refl hg)
    | some o =>
      dsimp only
      split
      · exact D.invokeDartCallback hg hthis hgiven _
      · exact D.protoSet hg hthis (D.given_headD hgiven)
      · exact D.createPromise hg
      · next p isReject hcls =>
        exact D.resolveFunctionCall hg (D.promOf hg hf ho hcls) isReject hargs
      · exact D.call hg hr hthis hgiven
      · exact D.call hg hr hthis hgiven
      · exact D.refl hg
  | _ => exact D.refl hg

/-- `JSValue.callJS`. -/
theorem callJS (hg : D.Good own vm) {f : JSValue} (hf : D.Callee own vm f)
    {params : Option (List JSValue)} (hparams : ∀ a ∈ params.getD [], D.Held own vm a) :
    D.DartEnds own own JSValue.refs vm (callJS env f params vm) := by
  unfold QuickjsDart.callJS
  split_ifs
  · exact D.ffi hg (D.jsCall hg hf (D.scalar rfl) hparams) rfl
  · exact D.refl hg

end Discipline

/-! ## Registrations -/

/-- A registration: `nextHandlerId`, and the function object. -/
def register (h : Handler) (vm : VM) : VM :=
  let id := int64Succ (vm.nextFuncHandlerId.getD 0)
  newHook id h { vm with
    nextFuncHandlerId := some id
    dartHandlerMap := some (putIfAbsent id h (vm.dartHandlerMap.getD [])) }

/-- What a ledger of states has to say about the rest of the bridge. -/
structure Registry (env : Env) extends Discipline env, Bridge env where
  anyGood : ∀ {own own' vm}, Good own vm → Good own' vm
  anyHeld : ∀ {own own' vm v}, Held own vm v → Held own' vm v
  found : ∀ {own vm vm'}, Lost vm vm' → To own vm own vm'
  newString : ∀ vm s, Given vm (.string vm.heap.length s)
  fresh : ∀ {own vm cls proto}, Good own vm → cls.isPlain = true → proto < fixedCells →
    To own vm (vm.heap.length :: own) (vm.alloc (.obj (.fresh cls proto))) ∧
      Held (vm.heap.length :: own) (vm.alloc (.obj (.fresh cls proto))) (.object vm.heap.length)
  register : ∀ {own vm h}, Good own vm →
    To own vm (vm.heap.length :: own) (register h vm) ∧
      Given (QuickjsDart.register h vm) (.object vm.heap.length)

namespace Registry

variable {env : Env} {D : Registry env} {own : List Ref} {vm : VM} {this : JSValue} {key : PropKey}

/-- The property of a hook, after the id and the function object. -/
theorem installDartHook (hg : D.Good own vm) (hthis : D.Held own vm this) (hkey : D.Key key)
    (h : Handler) {vm₁ : VM} {id : ℤ} (hid : nextHandlerId h vm = .ok id vm₁) :
    D.Ends (vm.heap.length :: own) own noRefs (QuickjsDart.register h vm)
      (installDartHook env this key id h vm₁) := by
  cases hid
  obtain ⟨hreg, hhook⟩ := D.register (h := h) hg
  have hg₁ := D.good hg hreg
  have hdup := D.dup (v := .object vm.heap.length) hg₁ fun r _ => D.anyCell _ r
  have hg₂ := D.good hg₁ hdup
  have hthis₂ := D.held hthis (D.trans hreg (D.keep [vm.heap.length] hg₁ hdup))
    (List.subset_cons_self _ _)
  have hdef := D.jsDefinePropertyValue hg₂ hthis₂ (D.givenKept hhook hdup) hkey .cw
  have hle : ∀ r, own.count r ≤ (vm.heap.length :: own).count r := fun r => by
    rw [List.count_cons]
    exact Nat.le_add_right _ _
  refine Ledger.Ends.forget hg₁ hle ?_
  unfold QuickjsDart.installDartHook
  unfold QuickjsDart.register at hdup hdef ⊢
  dsimp only at hdup hdef ⊢
  cases hrun : QuickjsDart.jsDefinePropertyValue env this key (.object vm.heap.length) .cw
      ((newHook (int64Succ (vm.nextFuncHandlerId.getD 0)) h _).dup (.object vm.heap.length)) with
  | ok b vm₂ =>
    rw [hrun] at hdef
    exact D.trans hdup hdef
  | error e vm₂ =>
    rw [hrun] at hdef
    exact (Ledger.Ends.after hdup hdef).raised

/-- `createNewFunction` with a name registers its handler once, and goes on from there. -/
theorem createNewFunction_registers (hg : D.Good own vm) {name : PropName} (hname : name ≠ .null)
    (h : Handler) {toVal : Option JSValue}
    (hto : D.Held own vm (toVal.getD (.object globalObject))) :
    ∃ vm₁, D.To own vm own vm₁ ∧ vm₁.registrations = vm.registrations ∧
      D.DartEnds (vm₁.heap.length :: own) own noRefs (QuickjsDart.register h vm₁)
        (createNewFunction env name h toVal vm) := by
  obtain ⟨w, vm₁, hhandle, hto₁, hregs⟩ := D.handle hg name
  have hg₁ := D.good hg hto₁
  have hend : ∀ {vm₂ vm' : VM} {this : JSValue} {id : ℤ}, D.Good own vm₂ → D.Held own vm₂ this →
      nextHandlerId h vm₂ = .ok id vm' →
      D.DartEnds (vm₂.heap.length :: own) own noRefs (QuickjsDart.register h vm₂)
        (QuickjsDart.ffi () (QuickjsDart.installDartHook env this name.key id h) vm') :=
    fun hg₂ hthis hid => D.ffi (D.good hg₂ (D.register hg₂).1)
      (D.installDartHook hg₂ hthis (D.keyOfName name) h hid) rfl
  unfold QuickjsDart.createNewFunction
  rw [if_neg hname]
  dsimp only
  rw [bind_of_ok hhandle, bind_of_ok (show nextHandlerId h vm₁ = .ok _ _ from rfl)]
  cases toVal with
  | some v =>
    refine ⟨vm₁, hto₁, hregs, ?_⟩
    exact hend hg₁ (D.heldKept hto hto₁) rfl
  | none =>
    have hdup := D.keep [globalObject] hg₁
      (D.dup (v := .object globalObject) hg₁ fun r _ => D.anyCell vm₁ r)
    have hto₂ := D.trans hto₁ hdup
    refine ⟨vm₁.dup (.object globalObject), hto₂, hregs, ?_⟩
    exact hend (D.good hg₁ hdup) (D.heldKept hto hto₂) rfl

/-- `createNewFunction` on an object of its own, and on the global object. -/
theorem createNewFunction (hg : D.Good own vm) (name : PropName) (h : Handler)
    {toVal : Option JSValue} (hto : D.Held own vm (toVal.getD (.object globalObject))) :
    D.DartEnds own own noRefs vm (createNewFunction env name h toVal vm) := by
  by_cases hname : name = .null
  · unfold QuickjsDart.createNewFunction
    rw [if_pos hname]
    exact D.refl hg
  · obtain ⟨vm₁, hto₁, -, hend⟩ := D.createNewFunction_registers hg hname h hto
    exact Ledger.DartEnds.after (D.trans hto₁ (D.register (D.good hg hto₁)).1) hend

/-- A new object or array. -/
theorem made (hg : D.Good own vm) {cls : ObjClass} {proto : Ref} (hcls : cls.isPlain = true)
    (hproto : proto < fixedCells) {ι : Type} :
    D.To own vm own (vm.alloc (.obj (.fresh cls proto))) ∧
      D.Given (vm.alloc (.obj (.fresh cls proto))) (.object vm.heap.length) ∧
      ∀ _ : ι, D.Held own (vm.alloc (.obj (.fresh cls proto))) (.object vm.heap.length) := by
  obtain ⟨hto, hheld⟩ := D.fresh hg hcls hproto
  have hgiven := D.given (D.target (D.good hg hto) hheld)
  exact ⟨D.keep [vm.heap.length] hg hto, hgiven, fun _ => D.anyHeld hheld⟩

/-- A ledger of the bridge is kept by conversions. -/
def conversion (D : Registry env) (own : List Ref) : Conversion env where
  Good := D.Good own
  To vm vm' := D.To own vm own vm'
  Val := D.Given
  Site vm t _ := D.Held own vm t
  refl := D.refl
  trans := D.trans
  good := D.good
  valKept := D.givenKept
  siteKept := D.heldKept
  scalar {vm v} hv := D.given (D.scalar (by rw [JSValue.refs, hv]; rfl))
  newString {vm} s hg := ⟨D.keep [vm.heap.length] hg (D.leaf hg),
    D.givenKept (D.newString vm _) (D.leaf hg)⟩
  newObject hg hrun := by
    cases hrun
    exact D.made hg rfl (by decide)
  newArray hg hrun := by
    cases hrun
    exact D.made hg rfl (by decide)
  Faulty _ := True
  throws _ := trivial
  store hg ht hv := endsIn_of_to (D.found (D.setProperty hg ht hv _).lost) fun _ _ _ => trivial
  handler {vm t name} h hg ht :=
    have hto : D.Held own vm ((some t).getD (.object globalObject)) := ht
    endsIn_of_to (D.found (D.createNewFunction hg name h hto).lost) fun _ _ _ => trivial

end Registry

end QuickjsDart
