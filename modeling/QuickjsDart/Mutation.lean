import QuickjsDart.Engine

/-!
# Mutations that fail

`setProperty`, `setPropertyString` and `setProtoType` call into QuickJS and drop what the call
returns. A failed call leaves its exception pending, and Dart goes on (`Ignores`), so a mutation is
reported as it should be only where QuickJS does not fail. `Assignable` and `ProtoAssignable` say
when that is: they follow the receiver, its prototype chain and the setters in the state before the
call.
-/

namespace QuickjsDart

open Codec

variable (env : Env)

/-! ## `JS_SetPrototype` -/

/-- The prototype a value stands for: an object, or `null` for none. -/
def protoVal? : JSValue → Option (Option Ref)
  | .object q => some (some q)
  | .null => some none
  | _ => none

section

variable (setPrototypeExotic : Ref → JSValue → JS Bool)

/-- `JS_SetPrototype`. The argument is `js_proxy_setPrototypeOf`, which runs script code. -/
def jsSetPrototype (obj protoVal : JSValue) : JS Bool := fun vm =>
  if obj = .null ∨ obj = .undefined then .error (.error "not an object") vm
  else
    match protoVal? protoVal with
    | none => .error (.error "not an object") vm
    | some proto =>
      match obj with
      | .object r =>
        match vm.heap.obj? r with
        | none => .error .crash vm
        | some o =>
          match o.cls with
          | .exotic _ => setPrototypeExotic r protoVal vm
          | _ =>
            if o.proto = proto then .ok true vm
            else if ¬ o.extensible then .error (.error "object is not extensible") vm
            else if onChain vm.heap r (chainFuel vm.heap) proto then
              .error (.error "circular prototype chain") vm
            else .ok true (vm.setProto r o proto)
      | _ => .ok true vm

/-- `JSEngine.setProtoType`. The call into C does not throw, so its `catch` is not reached. -/
def setProtoType (receiver value : JSValue) : Dart JSValue := do
  let _ ← ffi false (jsSetPrototype setPrototypeExotic receiver value)
  pure receiver

end

/-! ## What is reported -/

/-- The mutation `op`, made by `call`, is reported: where QuickJS fails the call throws and nothing
is left pending, and where the call returns the mutation was made. -/
structure Reported {α : Type} (op : JS Bool) (vm₁ : VM) (call : Dart α) (vm : VM) : Prop where
  failure : ∀ e vm', op vm₁ = .error e vm' → e ≠ .crash →
    ∃ err vm'', call vm = .error (.throws err) vm'' ∧ vm''.currentException = none
  success : ∀ a vm'', call vm = .ok a vm'' → ∃ vm', op vm₁ = .ok true vm'

/-- The call returns whatever comes of `op`, unless the process ends. -/
def Ignores {α : Type} (op : JS Bool) (vm₁ : VM) (call : Dart α) (vm : VM) : Prop :=
  (∃ a vm'', call vm = .ok a vm'') ∧ (∀ vm', op vm₁ ≠ .error .crash vm') ∨
    (∃ vm'', call vm = .error .crash vm'') ∧ ∃ vm', op vm₁ = .error .crash vm'

/-- QuickJS does not come back with a failure. -/
def Done : EStateM.Result JSFault VM Bool → Prop
  | .ok b _ => b = true
  | .error e _ => e = .crash

/-- A call that ignores the outcome reports exactly what cannot fail. -/
theorem Ignores.reported_iff {α : Type} {op : JS Bool} {vm₁ vm : VM} {call : Dart α}
    (h : Ignores op vm₁ call vm) : Reported op vm₁ call vm ↔ Done (op vm₁) := by
  rcases h with ⟨⟨a, vm'', hcall⟩, hcrash⟩ | ⟨⟨vm'', hcall⟩, vm', hop⟩
  · cases hop : op vm₁ with
    | ok b vm' =>
      constructor
      · intro hr
        obtain ⟨vm₂, hdone⟩ := hr.success a vm'' hcall
        cases hop.symm.trans hdone
        rfl
      · intro hb
        cases (show b = true from hb)
        refine ⟨fun e vm₂ he => ?_, fun _ _ _ => ⟨vm', hop⟩⟩
        cases hop.symm.trans he
    | error e vm' =>
      have he : e ≠ .crash := by
        rintro rfl
        exact hcrash vm' hop
      constructor
      · intro hr
        obtain ⟨err, vm₂, hthrow, -⟩ := hr.failure e vm' hop he
        cases hcall.symm.trans hthrow
      · intro hdone
        exact absurd hdone he
  · rw [hop]
    refine ⟨fun _ => rfl, fun _ => ⟨fun e vm₂ he hne => ?_, fun b vm₂ hret => ?_⟩⟩
    · cases hop.symm.trans he
      exact absurd rfl hne
    · cases hcall.symm.trans hret

/-- A call from Dart into C whose result is dropped. -/
theorem ignores_ffi {α : Type} {dflt : α} {op : JS Bool} {act : JS α} {vm₁ vm : VM}
    (h : ∀ vm', op vm₁ = .error .crash vm' ↔ act vm = .error .crash vm') :
    Ignores op vm₁ (ffi dflt act) vm := by
  unfold Ignores ffi
  cases hrun : act vm with
  | ok a vm' =>
    refine .inl ⟨⟨a, vm', rfl⟩, fun vm₂ hop => ?_⟩
    rw [h, hrun] at hop
    cases hop
  | error e vm' =>
    cases e with
    | crash => exact .inr ⟨⟨vm', rfl⟩, vm', (h vm').2 hrun⟩
    | error m =>
      refine .inl ⟨⟨dflt, _, rfl⟩, fun vm₂ hop => ?_⟩
      rw [h, hrun] at hop
      cases hop
    | value v =>
      refine .inl ⟨⟨dflt, _, rfl⟩, fun vm₂ hop => ?_⟩
      rw [h, hrun] at hop
      cases hop

/-- What follows the call and does not fail changes nothing. -/
theorem Ignores.bind_pure {α β : Type} {op : JS Bool} {vm₁ vm : VM} {call : Dart α}
    (h : Ignores op vm₁ call vm) (f : α → β) :
    Ignores op vm₁ (call >>= fun a => pure (f a)) vm := by
  rcases h with ⟨⟨a, vm'', hcall⟩, hcrash⟩ | ⟨⟨vm'', hcall⟩, hop⟩
  · exact .inl ⟨⟨f a, vm'', bind_of_ok hcall⟩, hcrash⟩
  · exact .inr ⟨⟨vm'', bind_of_error hcall⟩, hop⟩

/-! ## When an assignment is made -/

/-- The setter of a property is there and returns. -/
def SetterReturns (setter : Option Ref) (this v : JSValue) (vm : VM) : Prop :=
  match setter with
  | none => False
  | some f =>
    match callAccessor env f this [v] vm with
    | .ok _ _ => True
    | .error e _ => e = .crash

/-- The value is a length, and no element behind it has to stay, of those that are looked at. -/
def LengthTaken (r : Ref) (v : JSValue) (vm : VM) : Prop :=
  match toArrayLength env v vm with
  | .error e _ => e = .crash
  | .ok len vm' =>
    match vm'.heap.obj? r with
    | none => True
    | some o =>
      ∀ oldLen, o.cls = .array oldLen →
        (env.cutPass vm'.heap r len).curLen oldLen len o.props ≤ len

/-- What the walk along the prototypes found takes the value. -/
def TargetTakes (target : SetTarget) (this : JSValue) (own : Option Obj) (key : PropKey)
    (v : JSValue) (vm : VM) : Prop :=
  match target with
  | .readOnly => False
  | .setter s => SetterReturns env s this v vm
  | .exotic p => Done (env.setExotic p key v this vm)
  | .absent =>
    match own with
    | none => False
    | some o => o.extensible = true

/-- An assignment with `JS_PROP_THROW` is made, or ends the process: the receiver is neither `null`
nor `undefined`, and the property is a writable value, an accessor whose setter returns, a property
that an exotic object takes, or a new one of an extensible object. -/
def Assignable (this : JSValue) (key : PropKey) (v : JSValue) (vm : VM) : Prop :=
  match this with
  | .null => False
  | .undefined => False
  | .object r =>
    match vm.heap.obj? r with
    | none => True
    | some o =>
      match o.getOwn key with
      | some (.data _ fl) =>
        fl.writable = true ∧
          (o.cls.isArray = true ∧ key = .name lengthName → LengthTaken env r v vm)
      | some (.accessor _ s _) => SetterReturns env s this v vm
      | none =>
        match o.cls with
        | .exotic _ => TargetTakes env (.exotic r) this (some o) key v vm
        | _ =>
          TargetTakes env (setWalk vm.heap (env.fastArray vm.heap) key (chainFuel vm.heap) o.proto)
            this (some o) key v vm
  | _ =>
    TargetTakes env
      (setWalk vm.heap (env.fastArray vm.heap) key (chainFuel vm.heap) (env.primitiveProto this))
      this none key v vm

/-- A setter is done where it returns. -/
theorem done_callSetter (s : Option Ref) (this v : JSValue) (vm : VM) :
    Done (callSetter env s this v true vm) ↔ SetterReturns env s this v vm := by
  unfold callSetter SetterReturns
  cases s with
  | none => exact ⟨fun h => (by cases h), False.elim⟩
  | some f =>
    dsimp only
    cases callAccessor env f this [v] vm with
    | ok ret vm' => exact ⟨fun _ => trivial, fun _ => rfl⟩
    | error e vm' => exact Iff.rfl

/-- An assignment to a `length` is done where that is taken in full. -/
theorem done_setArrayLength (r : Ref) (v : JSValue) (vm : VM) :
    Done (setArrayLength env r v true vm) ↔ LengthTaken env r v vm := by
  unfold setArrayLength LengthTaken
  cases toArrayLength env v vm with
  | error e vm' => exact Iff.rfl
  | ok len vm' =>
    dsimp only
    unfold cutArray
    cases vm'.heap.obj? r with
    | none => exact ⟨fun _ => trivial, fun _ => rfl⟩
    | some o =>
      dsimp only
      cases hcls : o.cls with
      | array oldLen =>
        dsimp only
        split_ifs with hlt
        · refine ⟨fun h => (by cases h), fun h => ?_⟩
          exact absurd (h oldLen rfl) (Nat.not_le_of_lt hlt)
        · refine ⟨fun _ len' hlen' => ?_, fun _ => rfl⟩
          cases hlen'
          exact Nat.le_of_not_lt hlt
      | _ => exact ⟨fun _ _ h => (by cases h), fun _ => rfl⟩

/-- An assignment is done where its target takes the value. -/
theorem done_setAfterWalk (target : SetTarget) (this : JSValue) (own : Option (Ref × Obj))
    (key : PropKey) (v : JSValue) (vm : VM) :
    Done (setAfterWalk env target this own key v true vm) ↔
      TargetTakes env target this (own.map Prod.snd) key v vm := by
  unfold setAfterWalk TargetTakes
  cases target with
  | readOnly => exact ⟨fun h => (by cases h), False.elim⟩
  | setter s => exact done_callSetter env s this v vm
  | exotic p =>
    dsimp only
    cases env.setExotic p key v this vm with
    | ok b vm' => exact Iff.rfl
    | error e vm' => exact Iff.rfl
  | absent =>
    cases own with
    | none => exact ⟨fun h => (by cases h), False.elim⟩
    | some p =>
      obtain ⟨r, o⟩ := p
      dsimp only [Option.map_some]
      split_ifs with he
      · exact ⟨fun _ => he, fun _ => rfl⟩
      · exact ⟨fun h => (by cases h), fun h => absurd h he⟩

/-- `JS_SetPropertyInternal` with `JS_PROP_THROW` fails exactly where nothing can be assigned. -/
theorem done_jsSetPropertyInternal (this : JSValue) (key : PropKey) (v : JSValue) (vm : VM) :
    Done (jsSetPropertyInternal env this key v true vm) ↔ Assignable env this key v vm := by
  unfold jsSetPropertyInternal Assignable
  cases this with
  | null => exact ⟨fun h => (by cases h), False.elim⟩
  | undefined => exact ⟨fun h => (by cases h), False.elim⟩
  | object r =>
    dsimp only
    cases vm.heap.obj? r with
    | none => exact ⟨fun _ => trivial, fun _ => rfl⟩
    | some o =>
      dsimp only
      cases o.getOwn key with
      | none =>
        dsimp only
        cases o.cls <;> exact done_setAfterWalk env _ _ (some (r, o)) key v vm
      | some slot =>
        cases slot with
        | accessor g s fl => exact done_callSetter env s _ v vm
        | data old fl =>
          dsimp only
          split_ifs with hw hlen
          · rw [done_setArrayLength]
            exact ⟨fun h => ⟨hw, fun _ => h⟩, fun h => h.2 hlen⟩
          · exact ⟨fun _ => ⟨hw, fun h => absurd h hlen⟩, fun _ => rfl⟩
          · exact ⟨fun h => (by cases h), fun h => absurd h.1 hw⟩
  | _ => exact done_setAfterWalk env _ _ none key v vm

/-! ## When a prototype is set -/

/-- The object takes the prototype: it has it already, or it is extensible and not on the chain of
the new one; an exotic object decides by itself. -/
def ProtoTaken (setPrototypeExotic : Ref → JSValue → JS Bool) (r : Ref) (o : Obj)
    (proto : Option Ref) (protoVal : JSValue) (vm : VM) : Prop :=
  match o.cls with
  | .exotic _ => Done (setPrototypeExotic r protoVal vm)
  | _ =>
    o.proto = proto ∨ o.extensible = true ∧ onChain vm.heap r (chainFuel vm.heap) proto = false

/-- A prototype is set, or the process ends: the receiver is neither `null` nor `undefined`, the
prototype is an object or `null`, and where the receiver is an object it takes the prototype. -/
def ProtoAssignable (setPrototypeExotic : Ref → JSValue → JS Bool) (obj protoVal : JSValue)
    (vm : VM) : Prop :=
  ¬ (obj = .null ∨ obj = .undefined) ∧
    match protoVal? protoVal with
    | none => False
    | some proto =>
      match obj with
      | .object r =>
        match vm.heap.obj? r with
        | none => True
        | some o => ProtoTaken setPrototypeExotic r o proto protoVal vm
      | _ => True

/-- `JS_SetPrototype` fails exactly where no prototype can be set. -/
theorem done_jsSetPrototype (setPrototypeExotic : Ref → JSValue → JS Bool) (obj protoVal : JSValue)
    (vm : VM) :
    Done (jsSetPrototype setPrototypeExotic obj protoVal vm) ↔
      ProtoAssignable setPrototypeExotic obj protoVal vm := by
  have hordinary : ∀ r o proto, Done
      (if o.proto = proto then .ok true vm
        else if ¬ o.extensible then .error (.error "object is not extensible") vm
        else if onChain vm.heap r (chainFuel vm.heap) proto then
          .error (.error "circular prototype chain") vm
        else .ok true (vm.setProto r o proto)) ↔
      (o.proto = proto ∨
        o.extensible = true ∧ onChain vm.heap r (chainFuel vm.heap) proto = false) := by
    intro r o proto
    split_ifs with hsame hext hchain
    · exact ⟨fun _ => .inl hsame, fun _ => rfl⟩
    · refine ⟨fun h => (by cases h), fun h => ?_⟩
      rw [(h.resolve_left hsame).2] at hchain
      cases hchain
    · exact ⟨fun _ => .inr ⟨hext, Bool.eq_false_iff.2 hchain⟩, fun _ => rfl⟩
    · exact ⟨fun h => (by cases h), fun h => absurd (h.resolve_left hsame).1 hext⟩
  unfold jsSetPrototype ProtoAssignable
  split_ifs with hobj
  · exact ⟨fun h => (by cases h), fun h => absurd hobj h.1⟩
  · refine Iff.trans ?_ (and_iff_right hobj).symm
    cases protoVal? protoVal with
    | none => exact ⟨fun h => (by cases h), False.elim⟩
    | some proto =>
      cases obj with
      | object r =>
        dsimp only
        cases vm.heap.obj? r with
        | none => exact ⟨fun _ => trivial, fun _ => rfl⟩
        | some o =>
          dsimp only
          unfold ProtoTaken
          cases o.cls with
          | exotic id => exact Iff.rfl
          | _ => exact hordinary r o proto
      | _ => exact ⟨fun _ => trivial, fun _ => rfl⟩

/-! ## The three mutators -/

/-- The state after the handle of a property name was made. -/
def PropName.made (name : PropName) (vm : VM) : VM :=
  match name with
  | int _ => vm
  | string _ => vm.alloc .leaf
  | null => vm.alloc .leaf

/-- The handle of a name is made without an error. -/
theorem PropName.handle_ok (name : PropName) (vm : VM) :
    ∃ v, name.handle vm = .ok v (name.made vm) := by
  cases name with
  | int i => exact ⟨_, rfl⟩
  | string s => exact ⟨_, rfl⟩
  | null => exact ⟨_, rfl⟩

/-- `setProperty` returns whatever comes of the assignment. -/
theorem ignores_setProperty (this : JSValue) (name : PropName) (v : JSValue) (vm : VM) :
    Ignores (jsSetPropertyInternal env this name.key v true) ((name.made vm).dup v)
      (setProperty env this name v true) vm := by
  obtain ⟨handle, hhandle⟩ := name.handle_ok vm
  have hrun : setProperty env this name v true vm
      = ffi () (setProp env this name.key v true) (name.made vm) := bind_of_ok hhandle
  unfold Ignores
  rw [hrun]
  refine ignores_ffi fun vm' => ?_
  unfold setProp
  cases jsSetPropertyInternal env this name.key v true ((name.made vm).dup v) <;> simp

/-- So does `setPropertyString`. -/
theorem ignores_setPropertyString (this : JSValue) (name : Utf16) (v : JSValue) (vm : VM) :
    Ignores (jsSetPropertyInternal env this (.ofString (ffiString name)) v true) vm
      (setPropertyString env this name v) vm :=
  (ignores_ffi fun _ => Iff.rfl).bind_pure fun _ => ()

/-- So does `setProtoType`, of the new prototype. -/
theorem ignores_setProtoType (setPrototypeExotic : Ref → JSValue → JS Bool) (obj protoVal : JSValue)
    (vm : VM) : Ignores (jsSetPrototype setPrototypeExotic obj protoVal) vm
      (setProtoType setPrototypeExotic obj protoVal) vm :=
  (ignores_ffi fun _ => Iff.rfl).bind_pure fun _ => obj

/-- **Failed mutations.** None of the three mutators looks at what QuickJS returns. So a mutation is
reported as it should be exactly where it cannot fail: where the property can be assigned in the
state in which `setProp` and `setPropertyStr` assign it, and where the prototype can be set. -/
theorem mutation_reported_iff (setPrototypeExotic : Ref → JSValue → JS Bool) (this v : JSValue)
    (vm : VM) :
    (∀ name : PropName,
        Reported (jsSetPropertyInternal env this name.key v true) ((name.made vm).dup v)
            (setProperty env this name v true) vm ↔
          Assignable env this name.key v ((name.made vm).dup v)) ∧
      (∀ name : Utf16,
        Reported (jsSetPropertyInternal env this (.ofString (ffiString name)) v true) vm
            (setPropertyString env this name v) vm ↔
          Assignable env this (.ofString (ffiString name)) v vm) ∧
      (Reported (jsSetPrototype setPrototypeExotic this v) vm
          (setProtoType setPrototypeExotic this v) vm ↔
        ProtoAssignable setPrototypeExotic this v vm) := by
  refine ⟨fun name => ?_, fun name => ?_, ?_⟩
  · rw [(ignores_setProperty env this name v vm).reported_iff, done_jsSetPropertyInternal]
  · rw [(ignores_setPropertyString env this name v vm).reported_iff, done_jsSetPropertyInternal]
  · rw [(ignores_setProtoType setPrototypeExotic this v vm).reported_iff, done_jsSetPrototype]

/-- An engine with an object that `Object.preventExtensions` was called on. -/
def sealedVM : VM := VM.bare.alloc (.obj ⟨.object, some objectPrototype, false, []⟩)

/-- A property and a prototype for an object that is not extensible: nothing is set, the three calls
return, and the exception is left pending. -/
theorem mutation_not_reported :
    (setProperty Env.bare (.object 9) (.int 0) (.int 1) true sealedVM = .ok ()
        { sealedVM with currentException := some (.error "object is not extensible") } ∧
      ¬ Reported (jsSetPropertyInternal Env.bare (.object 9) (PropName.int 0).key (.int 1) true)
        (((PropName.int 0).made sealedVM).dup (.int 1))
        (setProperty Env.bare (.object 9) (.int 0) (.int 1) true) sealedVM) ∧
      ¬ Reported
        (jsSetPropertyInternal Env.bare (.object 9) (.ofString (ffiString [0x61])) (.int 1) true)
        sealedVM (setPropertyString Env.bare (.object 9) [0x61] (.int 1)) sealedVM ∧
      ¬ Reported (jsSetPrototype (fun _ _ => pure true) (.object 9) .null) sealedVM
        (setProtoType (fun _ _ => pure true) (.object 9) .null) sealedVM := by
  have hint : ∃ vm', jsSetPropertyInternal Env.bare (.object 9) (PropName.int 0).key (.int 1) true
      (((PropName.int 0).made sealedVM).dup (.int 1))
        = .error (.error "object is not extensible") vm' := ⟨_, rfl⟩
  have hstr :
      ∃ vm', jsSetPropertyInternal Env.bare (.object 9) (.ofString (ffiString [0x61])) (.int 1)
      true sealedVM = .error (.error "object is not extensible") vm' := ⟨_, rfl⟩
  have hproto : ∃ vm', jsSetPrototype (fun _ _ => pure true) (.object 9) .null sealedVM
      = .error (.error "object is not extensible") vm' := ⟨_, rfl⟩
  refine ⟨⟨rfl, fun h => ?_⟩, fun h => ?_, fun h => ?_⟩
  · have hdone := (ignores_setProperty _ _ _ _ _).reported_iff.1 h
    obtain ⟨vm', hrun⟩ := hint
    rw [hrun] at hdone
    cases hdone
  · have hdone := (ignores_setPropertyString _ _ _ _ _).reported_iff.1 h
    obtain ⟨vm', hrun⟩ := hstr
    rw [hrun] at hdone
    cases hdone
  · have hdone := (ignores_setProtoType _ _ _ _).reported_iff.1 h
    obtain ⟨vm', hrun⟩ := hproto
    rw [hrun] at hdone
    cases hdone

end QuickjsDart
