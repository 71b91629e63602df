import QuickjsDart.Machine

/-!
# Property access

`JS_GetPropertyInternal`, `JS_SetPropertyInternal` and `JS_DefinePropertyValue` on the heap, with
the walk along the prototype chain, accessors, the `__proto__` setter, and exotic objects.
-/

namespace QuickjsDart

open Codec

/-! ## Walking the prototype chain -/

/-- What a walk finds that ends `JS_SetPropertyInternal`. -/
inductive SetTarget where
  | readOnly
  | setter (f : Option Ref)
  | exotic (r : Ref)
  | absent
  deriving DecidableEq

/-- The key is a number atom. -/
def PropKey.isIndex : PropKey → Bool
  | index _ => true
  | _ => false

/-- The loop of `JS_SetPropertyInternal` over the prototypes. A writable property does not stop it,
but an element of a fast array does. -/
def setWalk (h : Heap) (fast : Ref → Bool) (key : PropKey) : ℕ → Option Ref → SetTarget
  | 0, _ => .absent
  | _ + 1, none => .absent
  | n + 1, some r =>
    match h.obj? r with
    | none => .absent
    | some o =>
      match o.cls with
      | .exotic _ => .exotic r
      | _ =>
        match o.getOwn key with
        | some (.accessor _ s _) => .setter s
        | some (.data _ fl) =>
          if fast r ∧ o.cls.isArray ∧ key.isIndex then .absent
          else if fl.writable then setWalk h fast key n o.proto
          else .readOnly
        | none => setWalk h fast key n o.proto

/-- What a walk finds that ends `JS_GetPropertyInternal`. -/
inductive GetTarget where
  | value (v : JSValue)
  | getter (f : Option Ref)
  | exotic (r : Ref)
  | absent
  deriving DecidableEq

/-- The loop of `JS_GetPropertyInternal`, from the object on. -/
def getWalk (h : Heap) (key : PropKey) : ℕ → Option Ref → GetTarget
  | 0, _ => .absent
  | _ + 1, none => .absent
  | n + 1, some r =>
    match h.obj? r with
    | none => .absent
    | some o =>
      match o.cls with
      | .exotic _ => .exotic r
      | _ =>
        match o.getOwn key with
        | some (.accessor g _ _) => .getter g
        | some (.data v _) => .value v
        | none => getWalk h key n o.proto

/-- A bound on the length of a prototype chain. -/
def chainFuel (h : Heap) : ℕ := h.length + 1

/-- `r` is on the prototype chain that starts at `p`. -/
def onChain (h : Heap) (r : Ref) : ℕ → Option Ref → Bool
  | 0, _ => false
  | _ + 1, none => false
  | n + 1, some p => p == r || onChain h r n ((h.obj? p).bind Obj.proto)

/-! ## Accessors -/

/-- Take references. -/
def VM.dupRefs (vm : VM) (rs : List Ref) : VM := rs.foldl (fun vm r => vm.dup (.object r)) vm

/-- The end of `JS_SetPrototypeInternal`: the shape takes the new prototype and releases the old
one. -/
def VM.setProto (vm : VM) (r : Ref) (o : Obj) (proto : Option Ref) : VM :=
  ((vm.dupRefs (shapeRefs proto)).setObj r { o with proto := proto }).mapHeap fun h =>
    Memory.release Body.refs (shapeRefs o.proto) h

/-- The references of a shape change no object. -/
theorem VM.obj?_dupRefs (vm : VM) (rs : List Ref) (x : Ref) :
    (vm.dupRefs rs).heap.obj? x = vm.heap.obj? x := by
  induction rs generalizing vm with
  | nil => rfl
  | cons r rs ih => exact (ih _).trans (Heap.obj?_dupValue vm.heap (.object r) x)

/-- `js_object___proto___` as a setter: only an object's prototype is set, and only to an object or
`null`. -/
def protoSet (this v : JSValue) : JS JSValue := fun vm =>
  match this, v with
  | .undefined, _ => .error (.error "not an object") vm
  | .null, _ => .error (.error "not an object") vm
  | .object r, .object q =>
    match vm.heap.obj? r with
    | none => .ok .undefined vm
    | some o =>
      if o.proto = some q then .ok .undefined vm
      else if ¬ o.extensible then .error (.error "object is not extensible") vm
      else if onChain vm.heap r (chainFuel vm.heap) (some q) then
        .error (.error "circular prototype chain") vm
      else .ok .undefined (vm.setProto r o (some q))
  | .object r, .null =>
    match vm.heap.obj? r with
    | none => .ok .undefined vm
    | some o =>
      if o.proto = none then .ok .undefined vm
      else if ¬ o.extensible then .error (.error "object is not extensible") vm
      else .ok .undefined (vm.setProto r o none)
  | _, _ => .ok .undefined vm

variable (env : Env)

/-- The function object is the setter of `Object.prototype.__proto__`. -/
def isProtoSetter (h : Heap) (f : Ref) : Bool :=
  match h.obj? f with
  | some o => o.cls == .function .protoSetter
  | none => false

/-- `JS_Call` on an accessor's function. -/
def callAccessor (f : Ref) (this : JSValue) (args : List JSValue) : JS JSValue := fun vm =>
  if isProtoSetter vm.heap f then protoSet this (args.headD .undefined) vm
  else env.call f this args vm

/-- `JS_ThrowTypeErrorOrFalse`: the flag `JS_PROP_THROW` decides. -/
def throwOrFalse (throwFlag : Bool) (message : String) : JS Bool := fun vm =>
  if throwFlag then .error (.error message) vm else .ok false vm

/-- `call_setter`: the value is released, whatever the setter does. -/
def callSetter (setter : Option Ref) (this v : JSValue) (throwFlag : Bool) : JS Bool := fun vm =>
  match setter with
  | none => throwOrFalse throwFlag "no setter for property" (vm.free v)
  | some f =>
    match callAccessor env f this [v] vm with
    | .ok ret vm' => .ok true ((vm'.free v).free ret)
    | .error e vm' => .error e (vm'.free v)

/-! ## Get -/

/-- `JS_GetPropertyInternal` along a chain: the result is a reference of its own. -/
def getFrom (start : Option Ref) (this : JSValue) (key : PropKey) : JS JSValue := fun vm =>
  match getWalk vm.heap key (chainFuel vm.heap) start with
  | .value v => .ok v (vm.dup v)
  | .getter none => .ok .undefined vm
  | .getter (some f) => callAccessor env f this [] vm
  | .exotic r => env.getExotic r key this vm
  | .absent => .ok .undefined vm

/-- The one-unit string at an index of a string. -/
def charAt (s : Utf16) (i : ℕ) : JS JSValue := fun vm =>
  .ok (.string vm.heap.length [s.getD i 0]) (vm.alloc .leaf)

/-- `JS_GetPropertyInternal`. -/
def jsGetProperty (this : JSValue) (key : PropKey) : JS JSValue := fun vm =>
  match this with
  | .null => .error (.error "cannot read property of null") vm
  | .undefined => .error (.error "cannot read property of undefined") vm
  | .exception => .ok .exception vm
  | .object r => getFrom env (some r) this key vm
  | .string _ s =>
    match key with
    | .index i =>
      if i < s.length then charAt s i vm else getFrom env (env.primitiveProto this) this key vm
    | _ =>
      if key = .name lengthName then .ok (intValue s.length) vm
      else getFrom env (env.primitiveProto this) this key vm
  | _ => getFrom env (env.primitiveProto this) this key vm

/-! ## Set -/

/-- The length that a value gives an array without a conversion, in `JS_ToArrayLengthFree`. -/
def arrayLength? : JSValue → Option ℕ
  | .int n => if 0 ≤ n.toInt then some n.toInt.toNat else none
  | .bool b => some b.toNat
  | .null => some 0
  | .bigInt _ n => if 0 ≤ n ∧ n < 2 ^ 32 then some n.toNat else none
  | .float64 d => if d.isInt ∧ 0 ≤ d.trunc ∧ d.trunc < 2 ^ 32 then some d.trunc.toNat else none
  | _ => none

/-- The values that `JS_ToArrayLengthFree` hands to `JS_ToNumber` first. -/
def JSValue.needsNumber : JSValue → Bool
  | int _ => false
  | bool _ => false
  | null => false
  | bigInt _ _ => false
  | float64 _ => false
  | _ => true

/-- `JS_ToArrayLengthFree`. -/
def toArrayLength (v : JSValue) : JS ℕ := fun vm =>
  if v.needsNumber then
    match env.toNumber v vm with
    | .error e vm' => .error e (vm'.free v)
    | .ok n vm' =>
      match arrayLength? n with
      | some len => .ok len ((vm'.free v).free n)
      | none => .error (.error "invalid array length") ((vm'.free v).free n)
  else
    match arrayLength? v with
    | some len => .ok len (vm.free v)
    | none => .error (.error "invalid array length") (vm.free v)

/-- The property lies at or behind a length. -/
def PropKey.beyond (len : ℕ) (key : PropKey) : Bool :=
  match key.arrayIndex with
  | some i => decide (len ≤ i)
  | none => false

/-- The flags of a slot. -/
def Slot.flags : Slot → Flags
  | data _ fl => fl
  | accessor _ _ fl => fl

/-- The length an array comes down to: an element that is not configurable stays. -/
def heldLength (len : ℕ) : List (PropKey × Slot) → ℕ
  | [] => len
  | (key, slot) :: rest =>
    match key.arrayIndex with
    | some i =>
      if slot.flags.configurable then heldLength len rest else heldLength (max len (i + 1)) rest
    | none => heldLength len rest

/-- The properties that a pass looks at. -/
def CutPass.sees (oldLen : ℕ) : CutPass → PropKey → Bool
  | elements, key => !key.beyond oldLen
  | shape _, _ => true

/-- The elements that a pass takes away. -/
def CutPass.takes (oldLen curLen : ℕ) : CutPass → PropKey → Bool
  | elements, key => key.beyond curLen && !key.beyond oldLen
  | shape left, key => key.beyond curLen && !left.contains key

/-- The length that `set_array_length` comes to, from the properties that its pass looks at. A
length that does not shrink is taken as it is. -/
def CutPass.curLen (pass : CutPass) (oldLen len : ℕ) (props : List (PropKey × Slot)) : ℕ :=
  if len < oldLen then heldLength len (props.filter fun p => pass.sees oldLen p.1) else len

/-- The properties that go. -/
def CutPass.gone (pass : CutPass) (oldLen len : ℕ) (props : List (PropKey × Slot)) (key : PropKey) :
    Bool := decide (len < oldLen) && pass.takes oldLen (pass.curLen oldLen len props) key

/-- The array with another length, without some of its properties. -/
def Obj.cut (o : Obj) (len : ℕ) (gone : PropKey → Bool) : Obj :=
  { o with cls := .array len, props := o.props.filter fun p => !gone p.1 }

/-- The array gets another length, and the references of the properties that go are released. -/
def VM.cutObj (vm : VM) (r : Ref) (o : Obj) (len : ℕ) (gone : PropKey → Bool) : VM :=
  (vm.setObj r (o.cut len gone)).mapHeap fun h =>
    Memory.release Body.refs ((o.props.filter fun p => gone p.1).flatMap fun p => p.2.refs) h

/-- `set_array_length`, once the length is known. -/
def cutArray (r : Ref) (len : ℕ) (throwFlag : Bool) : JS Bool := fun vm =>
  match vm.heap.obj? r with
  | none => .error .crash vm
  | some o =>
    match o.cls with
    | .array oldLen =>
      let pass := env.cutPass vm.heap r len
      let curLen := pass.curLen oldLen len o.props
      let vm := vm.cutObj r o curLen (pass.gone oldLen len o.props)
      if len < curLen then throwOrFalse throwFlag "not configurable" vm else .ok true vm
    | _ => .error .crash vm

/-- `set_array_length`. -/
def setArrayLength (r : Ref) (v : JSValue) (throwFlag : Bool) : JS Bool := fun vm =>
  match toArrayLength env v vm with
  | .error e vm => .error e vm
  | .ok len vm => cutArray env r len throwFlag vm

/-- What `JS_SetPropertyInternal` does once the walk is over. -/
def setAfterWalk (target : SetTarget) (this : JSValue) (own : Option (Ref × Obj)) (key : PropKey)
    (v : JSValue) (throwFlag : Bool) : JS Bool := fun vm =>
  match target with
  | .readOnly => throwOrFalse throwFlag "property is read-only" (vm.free v)
  | .setter s => callSetter env s this v throwFlag vm
  | .exotic p =>
    match env.setExotic p key v this vm with
    | .ok b vm' => .ok b (vm'.free v)
    | .error e vm' => .error e (vm'.free v)
  | .absent =>
    match own with
    | none => throwOrFalse throwFlag "not an object" (vm.free v)
    | some (r, o) =>
      if o.extensible then .ok true (vm.setObj r (o.putOwn key (.data v .cwe)))
      else throwOrFalse throwFlag "object is not extensible" (vm.free v)

/-- `JS_SetPropertyInternal`. It takes the caller's reference to the value. -/
def jsSetPropertyInternal (this : JSValue) (key : PropKey) (v : JSValue) (throwFlag : Bool) :
    JS Bool := fun vm =>
  match this with
  | .null => .error (.error "cannot set property of null") (vm.free v)
  | .undefined => .error (.error "cannot set property of undefined") (vm.free v)
  | .object r =>
    match vm.heap.obj? r with
    | none => .error .crash vm
    | some o =>
      match o.getOwn key with
      | some (.data old fl) =>
        if fl.writable then
          if o.cls.isArray ∧ key = .name lengthName then setArrayLength env r v throwFlag vm
          else .ok true ((vm.setObj r (o.putOwn key (.data v fl))).free old)
        else throwOrFalse throwFlag "property is read-only" (vm.free v)
      | some (.accessor _ s _) => callSetter env s this v throwFlag vm
      | none =>
        match o.cls with
        | .exotic _ => setAfterWalk env (.exotic r) this (some (r, o)) key v throwFlag vm
        | _ =>
          setAfterWalk env
            (setWalk vm.heap (env.fastArray vm.heap) key (chainFuel vm.heap) o.proto) this
            (some (r, o)) key v throwFlag vm
  | _ =>
    setAfterWalk env
      (setWalk vm.heap (env.fastArray vm.heap) key (chainFuel vm.heap) (env.primitiveProto this))
      this none key v throwFlag vm

/-! ## Define -/

/-- `JS_DefinePropertyValue` without `JS_PROP_THROW`. It takes the caller's reference to the
value. -/
def jsDefinePropertyValue (this : JSValue) (key : PropKey) (v : JSValue) (flags : Flags) :
    JS Bool := fun vm =>
  match this with
  | .object r =>
    match vm.heap.obj? r with
    | none => .error .crash vm
    | some o =>
      match o.cls with
      | .exotic _ =>
        match env.defineExotic r key v flags vm with
        | .ok b vm' => .ok b (vm'.free v)
        | .error e vm' => .error e (vm'.free v)
      | _ =>
        match o.getOwn key with
        | some slot =>
          if slot.flags.configurable then
            .ok true ((vm.setObj r (o.putOwn key (.data v flags))).mapHeap fun h =>
              Memory.release Body.refs slot.refs h)
          else .ok false (vm.free v)
        | none =>
          if o.extensible then .ok true (vm.setObj r (o.putOwn key (.data v flags)))
          else .ok false (vm.free v)
  | _ => .error (.error "not an object") (vm.free v)

/-! ## What the operations come to -/

/-- The `length` of an array cannot be configured. -/
theorem findSlot_of_configurable {o : Obj} {key : PropKey} {slot : Slot}
    (h : o.getOwn key = some slot) (hconf : slot.flags.configurable = true) :
    findSlot key o.props = some slot := by
  unfold Obj.getOwn at h
  split at h
  · split_ifs at h
    · cases h
      cases hconf
    · exact h
  · exact h

/-- An array does not hold less than it is asked to. -/
theorem le_heldLength (len : ℕ) (l : List (PropKey × Slot)) : len ≤ heldLength len l := by
  induction l generalizing len with
  | nil => exact le_rfl
  | cons p l ih =>
    obtain ⟨k, s⟩ := p
    rw [heldLength]
    cases k.arrayIndex with
    | none => exact ih len
    | some i =>
      dsimp only
      split_ifs
      · exact ih len
      · exact (le_max_left len (i + 1)).trans (ih _)

/-- An element that is not configurable holds the length of its array. -/
theorem lt_heldLength (len : ℕ) {l : List (PropKey × Slot)} {p : PropKey × Slot} (hp : p ∈ l)
    (hconf : p.2.flags.configurable = false) {i : ℕ} (hi : p.1.arrayIndex = some i) :
    i < heldLength len l := by
  induction l generalizing len with
  | nil => cases hp
  | cons q l ih =>
    obtain ⟨k, s⟩ := q
    rw [heldLength]
    rcases List.mem_cons.1 hp with rfl | hp
    · rw [hi]
      simp only [hconf, Bool.false_eq_true, if_false]
      exact lt_of_lt_of_le (Nat.lt_of_lt_of_le (Nat.lt_succ_self i) (le_max_right len (i + 1)))
        (le_heldLength _ l)
    · cases hk : k.arrayIndex with
      | none => exact ih _ hp
      | some j =>
        dsimp only
        split_ifs
        · exact ih _ hp
        · exact ih _ hp

/-- A pass takes away nothing but elements that it has looked at, from the length that is left
on. -/
theorem CutPass.sees_of_takes {pass : CutPass} {oldLen curLen : ℕ} {key : PropKey}
    (h : pass.takes oldLen curLen key = true) :
    pass.sees oldLen key = true ∧ key.beyond curLen = true := by
  cases pass with
  | elements =>
    obtain ⟨hcur, hold⟩ := Bool.and_eq_true_iff.1 h
    exact ⟨hold, hcur⟩
  | shape left => exact ⟨rfl, (Bool.and_eq_true_iff.1 h).1⟩

/-- What goes is configurable. -/
theorem CutPass.configurable_of_gone {pass : CutPass} {oldLen len : ℕ}
    {props : List (PropKey × Slot)} {p : PropKey × Slot} (hp : p ∈ props)
    (h : pass.gone oldLen len props p.1 = true) : p.2.flags.configurable = true := by
  obtain ⟨hlt, htakes⟩ := Bool.and_eq_true_iff.1 h
  obtain ⟨hsees, hbeyond⟩ := CutPass.sees_of_takes htakes
  by_contra hconf
  unfold CutPass.curLen at hbeyond
  rw [if_pos (of_decide_eq_true hlt)] at hbeyond
  unfold PropKey.beyond at hbeyond
  cases hi : p.1.arrayIndex with
  | none =>
    rw [hi] at hbeyond
    cases hbeyond
  | some i =>
    rw [hi] at hbeyond
    have hmem : p ∈ props.filter fun q => pass.sees oldLen q.1 := List.mem_filter.2 ⟨hp, hsees⟩
    have hheld := lt_heldLength len hmem (Bool.eq_false_iff.2 hconf) hi
    exact absurd (of_decide_eq_true hbeyond) (Nat.not_le_of_lt hheld)

/-- `set_array_length` gives an array another length and takes configurable properties away, whether
it then succeeds or raises. -/
theorem cutArray_cases (env : Env) (r : Ref) (len : ℕ) (throwFlag : Bool) (vm : VM) :
    cutArray env r len throwFlag vm = .error .crash vm ∨
      ∃ o oldLen curLen gone, vm.heap.obj? r = some o ∧ o.cls = .array oldLen ∧
        (∀ p ∈ o.props, gone p.1 = true → p.2.flags.configurable = true) ∧
        (cutArray env r len throwFlag vm = .ok true (vm.cutObj r o curLen gone) ∨
          cutArray env r len throwFlag vm
            = throwOrFalse throwFlag "not configurable" (vm.cutObj r o curLen gone)) := by
  unfold cutArray
  cases ho : vm.heap.obj? r with
  | none => exact .inl rfl
  | some o =>
    dsimp only
    cases hcls : o.cls with
    | array oldLen =>
      let pass := env.cutPass vm.heap r len
      refine .inr ⟨o, oldLen, pass.curLen oldLen len o.props, pass.gone oldLen len o.props, rfl,
        hcls, fun p hp => CutPass.configurable_of_gone hp, ?_⟩
      dsimp only
      split_ifs
      · exact .inr rfl
      · exact .inl rfl
    | _ => exact .inl rfl

/-- The setter of `__proto__` does nothing, raises, or replaces the prototype of an extensible
object by its argument, where that makes no cycle. -/
theorem protoSet_cases (this v : JSValue) (vm : VM) :
    protoSet this v vm = .ok .undefined vm ∨ (∃ m, protoSet this v vm = .error (.error m) vm) ∨
      ∃ r o q, this = .object r ∧ vm.heap.obj? r = some o ∧ (∀ x, q = some x → v = .object x) ∧
        (o.extensible = true ∧ onChain vm.heap r (chainFuel vm.heap) q = false) ∧
        protoSet this v vm = .ok .undefined (vm.setProto r o q) := by
  unfold protoSet
  split
  · exact .inr (.inl ⟨_, rfl⟩)
  · exact .inr (.inl ⟨_, rfl⟩)
  · next r q =>
    split
    · exact .inl rfl
    · next o ho =>
      split_ifs with hsame hext hchain
      · exact .inl rfl
      · exact .inr (.inl ⟨_, rfl⟩)
      · exact .inr (.inr ⟨r, o, some q, rfl, ho, fun x hx => by rw [Option.some.inj hx],
          ⟨hext, by simpa using hchain⟩, rfl⟩)
      · exact .inr (.inl ⟨_, rfl⟩)
  · next r =>
    split
    · exact .inl rfl
    · next o ho =>
      split_ifs with hsame hext
      · exact .inl rfl
      · exact .inr (.inr ⟨r, o, none, rfl, ho, nofun, ⟨hext, rfl⟩, rfl⟩)
      · exact .inr (.inl ⟨_, rfl⟩)
  · exact .inl rfl

end QuickjsDart
