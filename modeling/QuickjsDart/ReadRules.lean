import QuickjsDart.Read

/-!
# What a read runs

`JS_ToPrimitive` and `JS_JSONStringify` as rules: which properties of a value are looked up, which
methods are called, and how the elements and members of a container are gone through, from the state
at the start to the one at the end. A rule applies only where what it calls returns, so a value has
a derivation exactly where the conversion returns (`jsToPrimitive_ok_iff`, `jsonToStr_ok_iff`), and
what makes it fail shows in the rules: there is none for a BigInt, none for an object that is
already on the stack, and none past a method or a getter that throws.
-/

namespace QuickjsDart

open Codec

variable (env : Env)

/-! ## The rules -/

/-- A call of a function returns: the script's or the handler's, or one of the functions of QuickJS
that a property can hold. -/
inductive Returns (this : JSValue) (args : List JSValue) (vm : VM) : JSValue → JSValue → VM → Prop
    where
  | script {r : Ref} {o : Obj} {code : ℕ} {w : JSValue} {vm' : VM}
      (ho : vm.heap.obj? r = some o) (hcls : o.cls = .function (.script code))
      (hcall : env.call r this args vm = .ok w vm') : Returns this args vm (.object r) w vm'
  | exotic {r : Ref} {o : Obj} {id : ℕ} {w : JSValue} {vm' : VM}
      (ho : vm.heap.obj? r = some o) (hcls : o.cls = .exotic id)
      (hcall : env.call r this args vm = .ok w vm') : Returns this args vm (.object r) w vm'
  /-- The handler is the one of the id, and its pointer points at a value. -/
  | handler {r : Ref} {o : Obj} {data : JSValue} {h : Handler} {w : JSValue} {vm' : VM}
      (ho : vm.heap.obj? r = some o) (hcls : o.cls = .function (.dart data))
      (hfind : findHandler vm data = .ok h)
      (hrun : env.handler h this (handlerArgs args) vm = .ok w vm') (hw : w ≠ .exception) :
      Returns this args vm (.object r) w vm'
  | protoSetter {r : Ref} {o : Obj} {w : JSValue} {vm' : VM}
      (ho : vm.heap.obj? r = some o) (hcls : o.cls = .function .protoSetter)
      (hset : protoSet this (args.headD .undefined) vm = .ok w vm') :
      Returns this args vm (.object r) w vm'
  | createPromise {r : Ref} {o : Obj} {w : JSValue} {vm' : VM}
      (ho : vm.heap.obj? r = some o) (hcls : o.cls = .function .createPromise)
      (hmake : QuickjsDart.createPromise vm = .ok w vm') : Returns this args vm (.object r) w vm'
  | resolving {r : Ref} {o : Obj} {p : Ref} {isReject : Bool} {w : JSValue} {vm' : VM}
      (ho : vm.heap.obj? r = some o) (hcls : o.cls = .function (.resolving p isReject))
      (hcall : resolveFunctionCall env p isReject args vm = .ok w vm') :
      Returns this args vm (.object r) w vm'

/-- The value of a property, looked up from an object on: that of a data property, that which a
getter or an exotic object returns, and `undefined` where there is none. -/
inductive Gets (start : Option Ref) (this : JSValue) (key : PropKey) (vm : VM) :
    JSValue → VM → Prop where
  | value {v : JSValue} (hwalk : getWalk vm.heap key (chainFuel vm.heap) start = .value v) :
      Gets start this key vm v (vm.dup v)
  | noGetter (hwalk : getWalk vm.heap key (chainFuel vm.heap) start = .getter none) :
      Gets start this key vm .undefined vm
  | getter {f : Ref} {w : JSValue} {vm' : VM}
      (hwalk : getWalk vm.heap key (chainFuel vm.heap) start = .getter (some f))
      (hf : isProtoSetter vm.heap f = false) (hcall : env.call f this [] vm = .ok w vm') :
      Gets start this key vm w vm'
  /-- The setter of `__proto__` as a getter. -/
  | protoSetter {f : Ref} {w : JSValue} {vm' : VM}
      (hwalk : getWalk vm.heap key (chainFuel vm.heap) start = .getter (some f))
      (hf : isProtoSetter vm.heap f = true) (hset : protoSet this .undefined vm = .ok w vm') :
      Gets start this key vm w vm'
  | exotic {r : Ref} {w : JSValue} {vm' : VM}
      (hwalk : getWalk vm.heap key (chainFuel vm.heap) start = .exotic r)
      (hget : env.getExotic r key this vm = .ok w vm') : Gets start this key vm w vm'
  | absent (hwalk : getWalk vm.heap key (chainFuel vm.heap) start = .absent) :
      Gets start this key vm .undefined vm

/-- A method that `JS_ToPrimitive` tries on an object: what it returns if that is no object, and
nothing where it returns one or is no function. -/
inductive Tries (r : Ref) (name : Utf16) (vm : VM) : Option JSValue → VM → Prop where
  | returned {f w : JSValue} {vm₁ vm₂ : VM}
      (hget : Gets env (some r) (.object r) (.name name) vm f vm₁)
      (hf : isFunction env vm₁.heap f = true) (hcall : Returns env (.object r) [] vm₁ f w vm₂)
      (hw : w.isObject = false) : Tries r name vm (some w) (vm₂.free f)
  | object {f w : JSValue} {vm₁ vm₂ : VM}
      (hget : Gets env (some r) (.object r) (.name name) vm f vm₁)
      (hf : isFunction env vm₁.heap f = true) (hcall : Returns env (.object r) [] vm₁ f w vm₂)
      (hw : w.isObject = true) : Tries r name vm none ((vm₂.free f).free w)
  | noFunction {f : JSValue} {vm₁ : VM}
      (hget : Gets env (some r) (.object r) (.name name) vm f vm₁)
      (hf : isFunction env vm₁.heap f = false) : Tries r name vm none (vm₁.free f)

/-- The primitive value of an object: `Symbol.toPrimitive` decides where it is there, and then
`toString` before `valueOf`. -/
inductive Primitive (r : Ref) (vm : VM) : JSValue → VM → Prop where
  | hook {f w : JSValue} {vm₁ vm₂ : VM}
      (hget : Gets env (some r) (.object r) (.symbol symbolToPrimitive) vm f vm₁)
      (hf : ¬ (f = .undefined ∨ f = .null))
      (hcall : Returns env (.object r) [.string vm₁.heap.length stringName] (vm₁.alloc .leaf) f w
        vm₂)
      (hw : w.isObject = false) :
      Primitive r vm w ((vm₂.free f).free (.string vm₁.heap.length stringName))
  | toString {f w : JSValue} {vm₁ vm₂ : VM}
      (hget : Gets env (some r) (.object r) (.symbol symbolToPrimitive) vm f vm₁)
      (hf : f = .undefined ∨ f = .null) (htry : Tries env r toStringName vm₁ (some w) vm₂) :
      Primitive r vm w vm₂
  | valueOf {f w : JSValue} {vm₁ vm₂ vm₃ : VM}
      (hget : Gets env (some r) (.object r) (.symbol symbolToPrimitive) vm f vm₁)
      (hf : f = .undefined ∨ f = .null) (hnone : Tries env r toStringName vm₁ none vm₂)
      (htry : Tries env r valueOfName vm₂ (some w) vm₃) : Primitive r vm w vm₃

/-- The values that JSON leaves out. -/
def leftOut (h : Heap) : JSValue → Bool
  | .object r => isFunction env h (.object r)
  | .undefined => true
  | .symbol _ => true
  | .uninitialized => true
  | _ => false

/-- What is serialised in place of a value. -/
inductive JsonKept (vm : VM) : JSValue → JSValue → VM → Prop where
  | kept {v : JSValue} (hv : v ≠ .exception) (hout : leftOut env vm.heap v = false) :
      JsonKept vm v v vm
  | leftOut {v : JSValue} (hout : QuickjsDart.leftOut env vm.heap v = true) :
      JsonKept vm v .undefined (vm.free v)

/-- The values that are asked for `toJSON`, with the object that the lookup starts at. -/
def toJSONStart : JSValue → Option (Option Ref)
  | .object r => some (some r)
  | .bigInt r n => some (env.primitiveProto (.bigInt r n))
  | _ => none

/-- The value that is serialised for the one under a key, which may be what its `toJSON` returns. -/
inductive JsonChecked (val : JSValue) (key : Utf16) (vm : VM) : JSValue → VM → Prop where
  | plain {w : JSValue} {vm' : VM} (hval : toJSONStart env val = none)
      (hkeep : JsonKept env vm val w vm') : JsonChecked val key vm w vm'
  | toJSON {start : Option Ref} {f u w : JSValue} {vm₁ vm₂ vm' : VM}
      (hval : toJSONStart env val = some start)
      (hget : Gets env start val (.name toJSONName) vm f vm₁)
      (hf : isFunction env vm₁.heap f = true)
      (hcall : Returns env val [.string vm₁.heap.length key] (vm₁.alloc .leaf) f u vm₂)
      (hkeep : JsonKept env (((vm₂.free f).free (.string vm₁.heap.length key)).free val) u w vm') :
      JsonChecked val key vm w vm'
  | noToJSON {start : Option Ref} {f w : JSValue} {vm₁ vm' : VM}
      (hval : toJSONStart env val = some start)
      (hget : Gets env start val (.name toJSONName) vm f vm₁)
      (hf : isFunction env vm₁.heap f = false) (hkeep : JsonKept env (vm₁.free f) val w vm') :
      JsonChecked val key vm w vm'

/-- The answer of `JS_IsArray`. Only an exotic object computes it. -/
inductive IsArray (r : Ref) (o : Obj) (vm : VM) : Bool → VM → Prop where
  | plain (hcls : ∀ id, o.cls ≠ .exotic id) : IsArray r o vm o.cls.isArray vm
  | exotic {id : ℕ} {b : Bool} {vm' : VM} (hcls : o.cls = .exotic id)
      (hask : env.isArrayExotic r vm = .ok b vm') : IsArray r o vm b vm'

/-- The keys of an object. Only an exotic object computes them. -/
inductive Lists (r : Ref) (o : Obj) (vm : VM) : List PropKey → VM → Prop where
  | plain (hcls : ∀ id, o.cls ≠ .exotic id) : Lists r o vm o.enumKeys vm
  | exotic {id : ℕ} {keys : List Utf16} {vm' : VM} (hcls : o.cls = .exotic id)
      (hlist : env.keysExotic r vm = .ok keys vm') : Lists r o vm (keys.map .ofString) vm'

/-- The values that `JS_ToLengthFree` does not convert first. -/
def JSValue.hasNumberTag : JSValue → Bool
  | int _ => true
  | float64 _ => true
  | _ => false

/-- The length that a number gives. -/
def numberLength : JSValue → ℕ
  | .int k => k.toInt.toNat
  | .float64 (.inf false) => 2 ^ 53 - 1
  | .float64 d => min d.trunc.toNat (2 ^ 53 - 1)
  | _ => 0

/-- The length of an array, from its property. -/
inductive Measures (v : JSValue) (vm : VM) : ℕ → VM → Prop where
  | number (hv : v.hasNumberTag = true) : Measures v vm (numberLength v) vm
  | converted {w : JSValue} {vm' : VM} (hv : v.hasNumberTag = false)
      (hnum : env.toNumber v vm = .ok w vm') : Measures v vm (numberLength w) (vm'.free v)

/-- The text of a value that holds nothing. -/
def scalarText : JSValue → Option (List ℕ)
  | .string _ s => some (Json.quote s)
  | .float64 d => some (if d.isFinite then jsDtoa1 d else nullText)
  | .int n => some (intNumeral n.toInt).write
  | .bool b => some (boolText b)
  | .null => some nullText
  | .bigInt _ _ => none
  | .object _ => none
  | _ => some []

/-- The objects that are written by their elements or members. -/
def ObjClass.isContainer : ObjClass → Bool
  | boxed (.string _ _) => false
  | boxed (.int _) => false
  | boxed (.float64 _) => false
  | boxed (.bool _) => false
  | boxed (.bigInt _ _) => false
  | _ => true

/-- The text of a boxed value. There is none for a BigInt. -/
inductive JsonBoxed (r : Ref) (vm : VM) : JSValue → List ℕ → VM → Prop where
  | string {q : Ref} {s t : Utf16} {p : JSValue} {vm₁ : VM} (hprim : Primitive env r vm p vm₁)
      (ht : primitiveText p = .ok t) :
      JsonBoxed r vm (.string q s) (Json.quote t) (vm₁.free p)
  | number {b n : JSValue} {vm₁ : VM} (hb : b.hasNumberTag = true)
      (hnum : env.toNumber (.object r) vm = .ok n vm₁) : JsonBoxed r vm b (numberText n) vm₁
  | bool {b : Bool} : JsonBoxed r vm (.bool b) (boolText b) vm

mutual

/-- The text of a value under `depth` calls, with the containers around it. -/
inductive JsonText : ℕ → List Ref → JSValue → VM → List ℕ → VM → Prop where
  | scalar {depth : ℕ} {stack : List Ref} {v : JSValue} {vm : VM} {text : List ℕ}
      (hv : scalarText v = some text) : JsonText (depth + 1) stack v vm text (vm.free v)
  | boxed {depth : ℕ} {stack : List Ref} {r : Ref} {o : Obj} {b : JSValue} {text : List ℕ}
      {vm vm₁ : VM} (ho : vm.heap.obj? r = some o) (hcls : o.cls = .boxed b)
      (hbox : JsonBoxed env r vm b text vm₁) :
      JsonText (depth + 1) stack (.object r) vm text (vm₁.free (.object r))
  /-- The container is not inside itself. -/
  | container {depth : ℕ} {stack : List Ref} {r : Ref} {o : Obj} {text : List ℕ} {vm vm₁ : VM}
      (ho : vm.heap.obj? r = some o) (hcls : o.cls.isContainer = true) (hstack : r ∉ stack)
      (hbody : JsonBody depth (r :: stack) r o vm text vm₁) :
      JsonText (depth + 1) stack (.object r) vm text (vm₁.free (.object r))

/-- The text of a container. -/
inductive JsonBody : ℕ → List Ref → Ref → Obj → VM → List ℕ → VM → Prop where
  | array {depth : ℕ} {stack : List Ref} {r : Ref} {o : Obj} {l : JSValue} {n : ℕ} {text : List ℕ}
      {vm vm₁ vm₂ vm₃ vm₄ : VM} (hask : IsArray env r o vm true vm₁)
      (hlen : Gets env (some r) (.object r) (.name lengthName) vm₁ l vm₂)
      (hnum : Measures env l vm₂ n vm₃) (helems : JsonElems depth stack r 0 n vm₃ text vm₄) :
      JsonBody depth stack r o vm (0x5B :: text) vm₄
  | record {depth : ℕ} {stack : List Ref} {r : Ref} {o : Obj} {keys : List PropKey} {text : List ℕ}
      {vm vm₁ vm₂ vm₃ : VM} (hask : IsArray env r o vm false vm₁)
      (hkeys : Lists env r o vm₁ keys vm₂)
      (hmembers : JsonMembers depth stack r false keys vm₂ text vm₃) :
      JsonBody depth stack r o vm (0x7B :: text) vm₃

/-- The texts of an array's elements from an index on. -/
inductive JsonElems : ℕ → List Ref → Ref → ℕ → ℕ → VM → List ℕ → VM → Prop where
  | done {depth : ℕ} {stack : List Ref} {r : Ref} {i : ℕ} {vm : VM} :
      JsonElems depth stack r i 0 vm [0x5D] vm
  | next {depth : ℕ} {stack : List Ref} {r : Ref} {i n : ℕ} {v w : JSValue} {text rest : List ℕ}
      {vm vm₁ vm₂ vm₃ vm₄ : VM} (hget : Gets env (some r) (.object r) (.ofNat i) vm v vm₁)
      (hprep : JsonChecked env v (natText i) vm₁ w vm₂)
      (hwrite : JsonText depth stack (if w = .undefined then .null else w) vm₂ text vm₃)
      (hrest : JsonElems depth stack r (i + 1) n vm₃ rest vm₄) :
      JsonElems depth stack r i (n + 1) vm ((if 0 < i then [0x2C] else []) ++ (text ++ rest)) vm₄

/-- The texts of an object's members. -/
inductive JsonMembers : ℕ → List Ref → Ref → Bool → List PropKey → VM → List ℕ → VM → Prop where
  | done {depth : ℕ} {stack : List Ref} {r : Ref} {hasContent : Bool} {vm : VM} :
      JsonMembers depth stack r hasContent [] vm [0x7D] vm
  | leftOut {depth : ℕ} {stack : List Ref} {r : Ref} {hasContent : Bool} {key : PropKey}
      {keys : List PropKey} {v : JSValue} {text : List ℕ} {vm vm₁ vm₂ vm₃ : VM}
      (hget : Gets env (some r) (.object r) key vm v vm₁)
      (hprep : JsonChecked env v (key.text.getD []) vm₁ .undefined vm₂)
      (hrest : JsonMembers depth stack r hasContent keys vm₂ text vm₃) :
      JsonMembers depth stack r hasContent (key :: keys) vm text vm₃
  | next {depth : ℕ} {stack : List Ref} {r : Ref} {hasContent : Bool} {key : PropKey}
      {keys : List PropKey} {v w : JSValue} {text rest : List ℕ} {vm vm₁ vm₂ vm₃ vm₄ : VM}
      (hget : Gets env (some r) (.object r) key vm v vm₁)
      (hprep : JsonChecked env v (key.text.getD []) vm₁ w vm₂) (hw : w ≠ .undefined)
      (hwrite : JsonText depth stack w vm₂ text vm₃)
      (hrest : JsonMembers depth stack r true keys vm₃ rest vm₄) :
      JsonMembers depth stack r hasContent (key :: keys) vm
        ((if hasContent then [0x2C] else []) ++
          (Json.quote (key.text.getD []) ++ (0x3A :: (text ++ rest)))) vm₄

end

/-- `JS_JSONStringify` returns: the value is left out, or it is written in a text that fits a
string. -/
inductive Serialises (depth : ℕ) (v : JSValue) (vm : VM) : Prop where
  | leftOut {vm₁ : VM} (hprep : JsonChecked env v [] (vm.dup v) .undefined vm₁) :
      Serialises depth v vm
  | written {w : JSValue} {text : List ℕ} {vm₁ vm₂ : VM}
      (hprep : JsonChecked env v [] (vm.dup v) w vm₁)
      (hw : w ≠ .undefined) (hwrite : JsonText env depth [] w vm₁ text vm₂)
      (hfit : (ofCodePoints text).length ≤ stringLenMax) : Serialises depth v vm

section

variable {env} {depth : ℕ} {stack : List Ref} {v w : JSValue} {vm vm' : VM}

/-! ## The functions follow the rules -/

/-- A computation after which a value is released. -/
theorem releasing_eq_ok {α : Type} {act : JS α} {a : α} :
    releasing v act vm = .ok a vm' ↔ ∃ vm₁, act vm = .ok a vm₁ ∧ vm' = vm₁.free v := by
  unfold releasing
  cases act vm with
  | ok b vm₁ =>
    constructor
    · intro h
      cases h
      exact ⟨vm₁, rfl, rfl⟩
    · rintro ⟨vm₂, h, rfl⟩
      cases h
      rfl
  | error e vm₁ =>
    refine iff_of_false nofun ?_
    rintro ⟨vm₂, h, -⟩
    cases h

/-- Such a computation, where the first part returns. -/
theorem releasing_of_ok {α : Type} {act : JS α} {a : α} {vm₁ : VM} (h : act vm = .ok a vm₁) :
    releasing v act vm = .ok a (vm₁.free v) := releasing_eq_ok.2 ⟨vm₁, h, rfl⟩

/-- A hook returns what its handler returns. -/
theorem invokeDartCallback_eq_ok {this data : JSValue} {args : List JSValue} :
    invokeDartCallback env this args data vm = .ok w vm' ↔
      ∃ h, findHandler vm data = .ok h ∧ env.handler h this (handlerArgs args) vm = .ok w vm' ∧
        w ≠ .exception := by
  unfold invokeDartCallback callBackWrapper
  cases hfind : findHandler vm data with
  | error e =>
    refine iff_of_false nofun ?_
    rintro ⟨h, heq, -⟩
    cases heq
  | ok h =>
    dsimp only
    cases hrun : env.handler h this (handlerArgs args) vm with
    | error e vm₁ =>
      refine iff_of_false nofun ?_
      rintro ⟨g, heq, hg, -⟩
      cases heq
      rw [hrun] at hg
      cases hg
    | ok u vm₁ =>
      constructor
      · intro heq
        refine ⟨h, rfl, ?_⟩
        cases u with
        | exception => cases heq
        | _ =>
          cases heq
          exact ⟨hrun, nofun⟩
      · rintro ⟨g, heq, hg, hw⟩
        cases heq
        rw [hrun] at hg
        cases hg
        cases w with
        | exception => exact absurd rfl hw
        | _ => rfl

/-- `JS_Call` returns by the rules of calls. -/
theorem jsCall_ok_iff {f this : JSValue} {args : List JSValue} :
    jsCall env f this args vm = .ok w vm' ↔ Returns env this args vm f w vm' := by
  constructor
  · intro h
    unfold jsCall at h
    split at h
    · next r =>
      split at h
      · next o ho =>
        split at h
        · next data hcls =>
          obtain ⟨g, hfind, hrun, hw⟩ := invokeDartCallback_eq_ok.1 h
          exact .handler ho hcls hfind hrun hw
        · next hcls => exact .protoSetter ho hcls h
        · next hcls => exact .createPromise ho hcls h
        · next p isReject hcls => exact .resolving ho hcls h
        · next code hcls => exact .script ho hcls h
        · next id hcls => exact .exotic ho hcls h
        · cases h
      · cases h
    · cases h
  · intro h
    unfold jsCall
    cases h with
    | script ho hcls hcall =>
      simp only [ho, hcls]
      exact hcall
    | exotic ho hcls hcall =>
      simp only [ho, hcls]
      exact hcall
    | handler ho hcls hfind hrun hw =>
      simp only [ho, hcls]
      exact invokeDartCallback_eq_ok.2 ⟨_, hfind, hrun, hw⟩
    | protoSetter ho hcls hset =>
      simp only [ho, hcls]
      exact hset
    | createPromise ho hcls hmake =>
      simp only [ho, hcls]
      exact hmake
    | resolving ho hcls hcall =>
      simp only [ho, hcls]
      exact hcall

/-- A property is read by the rules of walks. -/
theorem getFrom_ok_iff {start : Option Ref} {this : JSValue} {key : PropKey} :
    getFrom env start this key vm = .ok w vm' ↔ Gets env start this key vm w vm' := by
  constructor
  · intro h
    unfold getFrom at h
    split at h
    · next hwalk =>
      cases h
      exact .value hwalk
    · next hwalk =>
      cases h
      exact .noGetter hwalk
    · next f hwalk =>
      unfold callAccessor at h
      split_ifs at h with hf
      · exact .protoSetter hwalk hf h
      · exact .getter hwalk (Bool.eq_false_iff.2 hf) h
    · next r hwalk => exact .exotic hwalk h
    · next hwalk =>
      cases h
      exact .absent hwalk
  · intro h
    unfold getFrom
    cases h with
    | value hwalk => rw [hwalk]
    | noGetter hwalk => rw [hwalk]
    | getter hwalk hf hcall =>
      rw [hwalk]
      dsimp only
      unfold callAccessor
      rw [if_neg (Bool.eq_false_iff.1 hf), hcall]
    | protoSetter hwalk hf hset =>
      rw [hwalk]
      dsimp only
      unfold callAccessor
      rw [if_pos hf]
      exact hset
    | exotic hwalk hget =>
      rw [hwalk]
      exact hget
    | absent hwalk => rw [hwalk]

/-! ## To a primitive value -/

/-- A property of an object is read by the rules of walks from there. -/
theorem jsGetProperty_object_ok_iff {r : Ref} {key : PropKey} :
    jsGetProperty env (.object r) key vm = .ok w vm' ↔
      Gets env (some r) (.object r) key vm w vm' := getFrom_ok_iff

/-- A method of `ToPrimitive` is tried by its rules. -/
theorem tryMethod_ok_iff {r : Ref} {name : Utf16} {ret : Option JSValue} :
    tryMethod env (.object r) name vm = .ok ret vm' ↔ Tries env r name vm ret vm' := by
  unfold tryMethod
  constructor
  · intro h
    obtain ⟨f, vm₁, hget, h⟩ := bind_eq_ok.1 h
    rw [jsGetProperty_object_ok_iff] at hget
    rw [get_bind] at h
    split_ifs at h with hf
    · obtain ⟨u, vm₂, hrel, h⟩ := bind_eq_ok.1 h
      obtain ⟨vm₃, hcall, rfl⟩ := releasing_eq_ok.1 hrel
      rw [jsCall_ok_iff] at hcall
      split_ifs at h with hu
      · cases h
        exact .object hget hf hcall hu
      · cases h
        exact .returned hget hf hcall (Bool.eq_false_iff.2 hu)
    · cases h
      exact .noFunction hget (Bool.eq_false_iff.2 hf)
  · intro h
    cases h with
    | returned hget hf hcall hw =>
      rw [bind_of_ok (jsGetProperty_object_ok_iff.2 hget), get_bind, if_pos hf,
        bind_of_ok (releasing_of_ok (jsCall_ok_iff.2 hcall)), if_neg (Bool.eq_false_iff.1 hw)]
      rfl
    | object hget hf hcall hw =>
      rw [bind_of_ok (jsGetProperty_object_ok_iff.2 hget), get_bind, if_pos hf,
        bind_of_ok (releasing_of_ok (jsCall_ok_iff.2 hcall)), if_pos hw]
      rfl
    | noFunction hget hf =>
      rw [bind_of_ok (jsGetProperty_object_ok_iff.2 hget), get_bind,
        if_neg (Bool.eq_false_iff.1 hf)]
      rfl

/-- The conversion of an object to a primitive value returns exactly by a derivation. -/
theorem jsToPrimitive_ok_iff {r : Ref} {p : JSValue} :
    jsToPrimitive env (.object r) vm = .ok p vm' ↔ Primitive env r vm p vm' := by
  unfold jsToPrimitive
  rw [if_pos (show (JSValue.object r).isObject = true from rfl)]
  constructor
  · intro h
    obtain ⟨f, vm₁, hget, h⟩ := bind_eq_ok.1 h
    rw [jsGetProperty_object_ok_iff] at hget
    split_ifs at h with hf
    · obtain ⟨ret, vm₂, htry, h⟩ := bind_eq_ok.1 h
      rw [tryMethod_ok_iff] at htry
      cases ret with
      | some u =>
        cases h
        exact .toString hget hf htry
      | none =>
        obtain ⟨ret', vm₃, htry', h⟩ := bind_eq_ok.1 h
        rw [tryMethod_ok_iff] at htry'
        cases ret' with
        | some u =>
          cases h
          exact .valueOf hget hf htry htry'
        | none => cases h
    · obtain ⟨arg, vm₂, harg, h⟩ := bind_eq_ok.1 h
      cases harg
      obtain ⟨u, vm₃, hrel, h⟩ := bind_eq_ok.1 h
      obtain ⟨vm₄, hrel', rfl⟩ := releasing_eq_ok.1 hrel
      obtain ⟨vm₅, hcall, rfl⟩ := releasing_eq_ok.1 hrel'
      split_ifs at h with hu
      · cases h
      · cases h
        exact .hook hget hf (jsCall_ok_iff.1 hcall) (Bool.eq_false_iff.2 hu)
  · intro h
    cases h with
    | @hook f u vm₁ vm₂ hget hf hcall hw =>
      have harg : jsNewString stringName vm₁
          = .ok (.string vm₁.heap.length stringName) (vm₁.alloc .leaf) := rfl
      rw [bind_of_ok (jsGetProperty_object_ok_iff.2 hget), if_neg hf, bind_of_ok harg,
        bind_of_ok (releasing_of_ok (releasing_of_ok (jsCall_ok_iff.2 hcall))),
        if_neg (Bool.eq_false_iff.1 hw)]
      rfl
    | toString hget hf htry =>
      rw [bind_of_ok (jsGetProperty_object_ok_iff.2 hget), if_pos hf,
        bind_of_ok (tryMethod_ok_iff.2 htry)]
      rfl
    | valueOf hget hf hnone htry =>
      rw [bind_of_ok (jsGetProperty_object_ok_iff.2 hget), if_pos hf,
        bind_of_ok (tryMethod_ok_iff.2 hnone)]
      exact bind_of_ok (tryMethod_ok_iff.2 htry)

/-- The text of a primitive runs no code. -/
theorem jsPrimitiveText_eq_ok {p : JSValue} {t : Utf16} :
    jsPrimitiveText p vm = .ok t vm' ↔ primitiveText p = .ok t ∧ vm' = vm := by
  unfold jsPrimitiveText
  cases primitiveText p with
  | ok s =>
    constructor
    · intro h
      cases h
      exact ⟨rfl, rfl⟩
    · rintro ⟨h, rfl⟩
      cases h
      rfl
  | error m =>
    refine iff_of_false nofun ?_
    rintro ⟨h, -⟩
    cases h

/-- An object is made a primitive first, which is released after that. -/
theorem jsToString_object_ok_iff {r : Ref} {t : Utf16} :
    jsToString env (.object r) vm = .ok t vm' ↔
      ∃ p vm₁, Primitive env r vm p vm₁ ∧ primitiveText p = .ok t ∧ vm' = vm₁.free p := by
  unfold jsToString
  rw [if_pos (show (JSValue.object r).isObject = true from rfl), bind_eq_ok]
  constructor
  · rintro ⟨p, vm₁, hp, h⟩
    obtain ⟨vm₂, htext, rfl⟩ := releasing_eq_ok.1 h
    obtain ⟨ht, rfl⟩ := jsPrimitiveText_eq_ok.1 htext
    exact ⟨p, _, jsToPrimitive_ok_iff.1 hp, ht, rfl⟩
  · rintro ⟨p, vm₁, hp, ht, rfl⟩
    exact ⟨p, vm₁, jsToPrimitive_ok_iff.2 hp, releasing_of_ok (jsPrimitiveText_eq_ok.2 ⟨ht, rfl⟩)⟩

/-! ## What JSON sees of a value -/

/-- What `js_json_check` does with a value, by the rules. -/
theorem jsonKeep_ok_iff : jsonKeep env v vm = .ok w vm' ↔ JsonKept env vm v w vm' := by
  constructor
  · intro h
    unfold jsonKeep at h
    cases v with
    | object r =>
      dsimp only at h
      rw [get_bind] at h
      split_ifs at h with hf
      · cases h
        exact .leftOut hf
      · cases h
        exact .kept nofun (Bool.eq_false_iff.2 hf)
    | string | int | float64 | bool | null | bigInt =>
      cases h
      exact .kept nofun rfl
    | exception => cases h
    | undefined | symbol | uninitialized =>
      cases h
      exact .leftOut rfl
  · intro h
    unfold jsonKeep
    cases h with
    | kept hv hout =>
      cases v with
      | object r =>
        dsimp only
        rw [get_bind, if_neg (show ¬ isFunction env vm.heap (.object r) = true from
          Bool.eq_false_iff.1 hout)]
        rfl
      | exception => exact absurd rfl hv
      | string | int | float64 | bool | null | bigInt => rfl
      | undefined | symbol | uninitialized => cases hout
    | leftOut hout =>
      cases v with
      | object r =>
        dsimp only
        rw [get_bind, if_pos (show isFunction env vm.heap (.object r) = true from hout)]
        rfl
      | undefined | symbol | uninitialized => rfl
      | exception | string | int | float64 | bool | null | bigInt => cases hout

/-- The method `toJSON` is read where the search for it starts. -/
theorem jsGetProperty_toJSONStart {start : Option Ref} {key : PropKey} {f : JSValue}
    (hv : toJSONStart env v = some start) :
    jsGetProperty env v key vm = .ok f vm' ↔ Gets env start v key vm f vm' := by
  cases v with
  | object r =>
    cases hv
    exact getFrom_ok_iff
  | bigInt r n =>
    cases hv
    exact getFrom_ok_iff
  | _ => cases hv

/-- A value that has no `toJSON` is taken as it is. -/
theorem jsonCheck_eq (key : Utf16) : jsonCheck env v key =
    if toJSONStart env v = none then jsonKeep env v
    else callToJSON env v key >>= jsonKeep env := by
  cases v <;> rfl

/-- `js_json_check` returns by the rules. -/
theorem jsonCheck_ok_iff {key : Utf16} :
    jsonCheck env v key vm = .ok w vm' ↔ JsonChecked env v key vm w vm' := by
  rw [jsonCheck_eq]
  constructor
  · intro h
    split_ifs at h with hv
    · exact .plain hv (jsonKeep_ok_iff.1 h)
    · obtain ⟨start, hv⟩ := Option.ne_none_iff_exists'.1 hv
      obtain ⟨u, vm₁, hcheck, hkeep⟩ := bind_eq_ok.1 h
      unfold callToJSON at hcheck
      obtain ⟨f, vm₂, hget, hcheck⟩ := bind_eq_ok.1 hcheck
      rw [jsGetProperty_toJSONStart hv] at hget
      rw [get_bind] at hcheck
      split_ifs at hcheck with hf
      · obtain ⟨prop, vm₃, hprop, hcheck⟩ := bind_eq_ok.1 hcheck
        cases hprop
        obtain ⟨vm₄, hval, rfl⟩ := releasing_eq_ok.1 hcheck
        obtain ⟨vm₅, hprop, rfl⟩ := releasing_eq_ok.1 hval
        obtain ⟨vm₆, hcall, rfl⟩ := releasing_eq_ok.1 hprop
        exact .toJSON hv hget hf (jsCall_ok_iff.1 hcall) (jsonKeep_ok_iff.1 hkeep)
      · cases hcheck
        exact .noToJSON hv hget (Bool.eq_false_iff.2 hf) (jsonKeep_ok_iff.1 hkeep)
  · intro h
    cases h with
    | plain hv hkeep =>
      rw [if_pos hv]
      exact jsonKeep_ok_iff.2 hkeep
    | @toJSON start f u _ vm₁ vm₂ _ hv hget hf hcall hkeep =>
      have hnew : jsNewString key vm₁ = .ok (.string vm₁.heap.length key) (vm₁.alloc .leaf) := rfl
      have hcheck : callToJSON env v key vm
          = .ok u (((vm₂.free f).free (.string vm₁.heap.length key)).free v) := by
        unfold callToJSON
        rw [bind_of_ok ((jsGetProperty_toJSONStart hv).2 hget), get_bind, if_pos hf,
          bind_of_ok hnew]
        exact releasing_of_ok (releasing_of_ok (releasing_of_ok (jsCall_ok_iff.2 hcall)))
      rw [if_neg (by rw [hv]; nofun), bind_of_ok hcheck]
      exact jsonKeep_ok_iff.2 hkeep
    | @noToJSON start f _ vm₁ _ hv hget hf hkeep =>
      have hcheck : callToJSON env v key vm = .ok v (vm₁.free f) := by
        unfold callToJSON
        rw [bind_of_ok ((jsGetProperty_toJSONStart hv).2 hget), get_bind,
          if_neg (Bool.eq_false_iff.1 hf)]
        rfl
      rw [if_neg (by rw [hv]; nofun), bind_of_ok hcheck]
      exact jsonKeep_ok_iff.2 hkeep

/-! ## Containers -/

/-- `JS_IsArray` returns by the rules. -/
theorem jsIsArray_ok_iff {r : Ref} {o : Obj} {b : Bool} :
    jsIsArray env r o vm = .ok b vm' ↔ IsArray env r o vm b vm' := by
  unfold jsIsArray
  cases hcls : o.cls with
  | exotic id =>
    constructor
    · exact .exotic hcls
    · intro h
      cases h with
      | plain hne => exact absurd hcls (hne id)
      | exotic _ hask => exact hask
  | _ =>
    constructor
    · intro h
      cases h
      have hplain : IsArray env r o vm o.cls.isArray vm := .plain (by rw [hcls]; nofun)
      rwa [hcls] at hplain
    · intro h
      cases h with
      | plain =>
        rw [hcls]
        rfl
      | exotic hexo =>
        rw [hcls] at hexo
        cases hexo

/-- The keys of an object, by the rules. -/
theorem jsonKeys_ok_iff {r : Ref} {o : Obj} {keys : List PropKey} :
    jsonKeys env r o vm = .ok keys vm' ↔ Lists env r o vm keys vm' := by
  unfold jsonKeys
  cases hcls : o.cls with
  | exotic id =>
    constructor
    · intro h
      obtain ⟨ks, vm₁, hlist, h⟩ := bind_eq_ok.1 h
      cases h
      exact .exotic hcls hlist
    · intro h
      cases h with
      | plain hne => exact absurd hcls (hne id)
      | exotic _ hlist => exact bind_of_ok hlist
  | _ =>
    constructor
    · intro h
      cases h
      exact .plain (by rw [hcls]; nofun)
    · intro h
      cases h with
      | plain => rfl
      | exotic hexo =>
        rw [hcls] at hexo
        cases hexo

/-- `JS_ToLengthFree` converts what is no number, and takes the length of the number. -/
theorem jsToLength_eq (v : JSValue) : jsToLength env v =
    if v.hasNumberTag then pure (numberLength v)
    else releasing v (env.toNumber v) >>= fun w => pure (numberLength w) := by
  have hlen : ∀ w : JSValue, (match w with
      | .int k => pure k.toInt.toNat
      | .float64 (.inf false) => pure (2 ^ 53 - 1)
      | .float64 d => pure (min d.trunc.toNat (2 ^ 53 - 1))
      | _ => pure 0 : JS ℕ) = pure (numberLength w) := fun w => by
    unfold numberLength
    split <;> rfl
  unfold jsToLength
  cases v with
  | int k => rfl
  | float64 d => exact hlen (.float64 d)
  | _ => exact congrArg (releasing _ (env.toNumber _) >>= ·) (funext hlen)

/-- `js_get_length64` returns by the rules. -/
theorem jsToLength_ok_iff {n : ℕ} :
    jsToLength env v vm = .ok n vm' ↔ Measures env v vm n vm' := by
  rw [jsToLength_eq]
  constructor
  · intro h
    split_ifs at h with hv
    · cases h
      exact .number hv
    · obtain ⟨w, vm₁, hrel, h⟩ := bind_eq_ok.1 h
      cases h
      obtain ⟨vm₂, hnum, rfl⟩ := releasing_eq_ok.1 hrel
      exact .converted (Bool.eq_false_iff.2 hv) hnum
  · intro h
    cases h with
    | number hv =>
      rw [if_pos hv]
      rfl
    | converted hv hnum =>
      rw [if_neg (Bool.eq_false_iff.1 hv)]
      exact bind_of_ok (releasing_of_ok hnum)

/-! ## Serialisation -/

/-- What is known of the calls for the elements and members, under `depth` of them. -/
def FollowsRules (env : Env) (depth : ℕ) : Prop :=
  ∀ {stack : List Ref} {v : JSValue} {vm vm' : VM} {text : List ℕ},
    jsonToStr env depth stack v vm = .ok text vm' ↔ JsonText env depth stack v vm text vm'

/-- The loop over the elements follows the rules where the calls that it makes do. The induction is
on the number of elements to go. -/
theorem jsonElems_ok_iff (hcall : FollowsRules env depth) {r : Ref} {i n : ℕ} {text : List ℕ} :
    jsonElems env (jsonToStr env depth stack) (.object r) i n vm = .ok text vm' ↔
      JsonElems env depth stack r i n vm text vm' := by
  induction n generalizing i vm text with
  | zero =>
    constructor
    · intro h
      cases h
      exact .done
    · intro h
      cases h
      rfl
  | succ n ih =>
    constructor
    · intro h
      unfold jsonElems at h
      obtain ⟨v, vm₁, hget, h⟩ := bind_eq_ok.1 h
      obtain ⟨w, vm₂, hprep, h⟩ := bind_eq_ok.1 h
      obtain ⟨t, vm₃, hwrite, h⟩ := bind_eq_ok.1 h
      obtain ⟨rest, vm₄, hrest, h⟩ := bind_eq_ok.1 h
      cases h
      exact .next (jsGetProperty_object_ok_iff.1 hget) (jsonCheck_ok_iff.1 hprep)
        (hcall.1 hwrite) (ih.1 hrest)
    · intro h
      cases h with
      | next hget hprep hwrite hrest =>
        unfold jsonElems
        rw [bind_of_ok (jsGetProperty_object_ok_iff.2 hget),
          bind_of_ok (jsonCheck_ok_iff.2 hprep), bind_of_ok (hcall.2 hwrite),
          bind_of_ok (ih.2 hrest)]
        rfl

/-- The loop over the members. The induction is on the keys to go. -/
theorem jsonMembers_ok_iff (hcall : FollowsRules env depth) {r : Ref} {hasContent : Bool}
    {keys : List PropKey} {text : List ℕ} :
    jsonMembers env (jsonToStr env depth stack) (.object r) hasContent keys vm = .ok text vm' ↔
      JsonMembers env depth stack r hasContent keys vm text vm' := by
  induction keys generalizing hasContent vm text with
  | nil =>
    constructor
    · intro h
      cases h
      exact .done
    · intro h
      cases h
      rfl
  | cons key keys ih =>
    constructor
    · intro h
      unfold jsonMembers at h
      obtain ⟨v, vm₁, hget, h⟩ := bind_eq_ok.1 h
      obtain ⟨w, vm₂, hprep, h⟩ := bind_eq_ok.1 h
      rw [jsGetProperty_object_ok_iff] at hget
      rw [jsonCheck_ok_iff] at hprep
      by_cases hw : w = .undefined
      · subst hw
        rw [if_pos rfl] at h
        exact .leftOut hget hprep (ih.1 h)
      · rw [if_neg hw] at h
        obtain ⟨t, vm₃, hwrite, h⟩ := bind_eq_ok.1 h
        obtain ⟨rest, vm₄, hrest, h⟩ := bind_eq_ok.1 h
        cases h
        exact .next hget hprep hw (hcall.1 hwrite) (ih.1 hrest)
    · intro h
      unfold jsonMembers
      cases h with
      | leftOut hget hprep hrest =>
        rw [bind_of_ok (jsGetProperty_object_ok_iff.2 hget),
          bind_of_ok (jsonCheck_ok_iff.2 hprep), if_pos rfl]
        exact ih.2 hrest
      | next hget hprep hw hwrite hrest =>
        rw [bind_of_ok (jsGetProperty_object_ok_iff.2 hget),
          bind_of_ok (jsonCheck_ok_iff.2 hprep), if_neg hw, bind_of_ok (hcall.2 hwrite),
          bind_of_ok (ih.2 hrest)]
        rfl

/-- An object that is no container is written without a look at the stack. -/
theorem jsonObject_container {toStr : JSValue → JS (List ℕ)} {r : Ref} {o : Obj}
    (hcls : o.cls.isContainer = true) : jsonObject env stack toStr r o =
      if r ∈ stack then throw (.error "circular reference") else jsonContainer env toStr r o := by
  unfold jsonObject
  cases hc : o.cls with
  | boxed b =>
    rw [hc] at hcls
    cases b <;> first | rfl | cases hcls
  | _ => rfl

/-- A container is written by the rules, where its members are. -/
theorem jsonContainer_ok_iff (hcall : FollowsRules env depth) {r : Ref} {o : Obj} {text : List ℕ} :
    jsonContainer env (jsonToStr env depth stack) r o vm = .ok text vm' ↔
      JsonBody env depth stack r o vm text vm' := by
  unfold jsonContainer
  constructor
  · intro h
    obtain ⟨b, vm₁, hask, h⟩ := bind_eq_ok.1 h
    rw [jsIsArray_ok_iff] at hask
    cases b with
    | true =>
      rw [if_pos rfl] at h
      obtain ⟨l, vm₂, hlen, h⟩ := bind_eq_ok.1 h
      obtain ⟨n, vm₃, hnum, h⟩ := bind_eq_ok.1 h
      obtain ⟨rest, vm₄, helems, h⟩ := bind_eq_ok.1 h
      cases h
      exact .array hask (jsGetProperty_object_ok_iff.1 hlen) (jsToLength_ok_iff.1 hnum)
        ((jsonElems_ok_iff hcall).1 helems)
    | false =>
      rw [if_neg Bool.false_ne_true] at h
      obtain ⟨keys, vm₂, hkeys, h⟩ := bind_eq_ok.1 h
      obtain ⟨rest, vm₃, hmembers, h⟩ := bind_eq_ok.1 h
      cases h
      exact .record hask (jsonKeys_ok_iff.1 hkeys) ((jsonMembers_ok_iff hcall).1 hmembers)
  · intro h
    cases h with
    | array hask hlen hnum helems =>
      rw [bind_of_ok (jsIsArray_ok_iff.2 hask), if_pos rfl,
        bind_of_ok (jsGetProperty_object_ok_iff.2 hlen), bind_of_ok (jsToLength_ok_iff.2 hnum),
        bind_of_ok ((jsonElems_ok_iff hcall).2 helems)]
      rfl
    | record hask hkeys hmembers =>
      rw [bind_of_ok (jsIsArray_ok_iff.2 hask), if_neg Bool.false_ne_true,
        bind_of_ok (jsonKeys_ok_iff.2 hkeys), bind_of_ok ((jsonMembers_ok_iff hcall).2 hmembers)]
      rfl

/-- What is unboxed is no container. -/
theorem JsonBoxed.not_container {r : Ref} {b : JSValue} {text : List ℕ}
    (h : JsonBoxed env r vm b text vm') : (ObjClass.boxed b).isContainer = false := by
  cases h with
  | string | bool => rfl
  | number hb => cases b <;> first | rfl | cases hb

/-- A boxed value that is no container. -/
theorem jsonObject_boxed_ok_iff {toStr : JSValue → JS (List ℕ)} {r : Ref} {o : Obj} {b : JSValue}
    {text : List ℕ} (hcls : o.cls = .boxed b) (hcont : (ObjClass.boxed b).isContainer = false) :
    jsonObject env stack toStr r o vm = .ok text vm' ↔ JsonBoxed env r vm b text vm' := by
  unfold jsonObject
  rw [hcls]
  constructor
  · intro h
    cases b with
    | string q s =>
      obtain ⟨t, vm₁, hs, h⟩ := bind_eq_ok.1 h
      cases h
      obtain ⟨p, vm₂, hprim, ht, rfl⟩ := jsToString_object_ok_iff.1 hs
      exact .string hprim ht
    | int | float64 =>
      obtain ⟨n, vm₁, hnum, h⟩ := bind_eq_ok.1 h
      cases h
      exact .number rfl hnum
    | bool b =>
      cases h
      exact .bool
    | bigInt => cases h
    | _ => cases hcont
  · intro h
    cases h with
    | string hprim ht => exact bind_of_ok (jsToString_object_ok_iff.2 ⟨_, _, hprim, ht, rfl⟩)
    | number hb hnum =>
      cases b with
      | int | float64 => exact bind_of_ok hnum
      | _ => cases hb
    | bool => rfl

/-- One object, where the calls for what it holds follow the rules. -/
theorem jsonObject_ok_iff (hcall : FollowsRules env depth) {r : Ref} {o : Obj} {text : List ℕ}
    (ho : vm.heap.obj? r = some o) :
    (∃ vm₁, jsonObject env stack (jsonToStr env depth (r :: stack)) r o vm = .ok text vm₁ ∧
        vm' = vm₁.free (.object r)) ↔
      JsonText env (depth + 1) stack (.object r) vm text vm' := by
  constructor
  · rintro ⟨vm₁, h, rfl⟩
    cases hcont : o.cls.isContainer with
    | true =>
      rw [jsonObject_container hcont] at h
      split_ifs at h with hstack
      · cases h
      · exact .container ho hcont hstack ((jsonContainer_ok_iff hcall).1 h)
    | false =>
      cases hcls : o.cls with
      | boxed b =>
        rw [hcls] at hcont
        exact .boxed ho hcls ((jsonObject_boxed_ok_iff hcls hcont).1 h)
      | _ =>
        rw [hcls] at hcont
        cases hcont
  · intro h
    cases h with
    | scalar hv => cases hv
    | boxed ho' hcls hbox =>
      cases ho.symm.trans ho'
      exact ⟨_, (jsonObject_boxed_ok_iff hcls hbox.not_container).2 hbox, rfl⟩
    | container ho' hcont hstack hbody =>
      cases ho.symm.trans ho'
      rw [jsonObject_container hcont, if_neg hstack]
      exact ⟨_, (jsonContainer_ok_iff hcall).2 hbody, rfl⟩

/-- `js_json_to_str` returns exactly by a derivation. The induction is on the depth of the native
stack: one level of the value for each. -/
theorem jsonToStr_ok_iff {text : List ℕ} :
    jsonToStr env depth stack v vm = .ok text vm' ↔ JsonText env depth stack v vm text vm' := by
  induction depth generalizing stack v vm vm' text with
  | zero => exact iff_of_false nofun nofun
  | succ depth ih =>
    show releasing v (jsonValue env stack (jsonToStr env depth) v) vm = _ ↔ _
    rw [releasing_eq_ok]
    cases v with
    | object r =>
      unfold jsonValue
      dsimp only
      cases ho : vm.heap.obj? r with
      | none =>
        refine iff_of_false ?_ ?_
        · rintro ⟨vm₁, h, -⟩
          rw [get_bind, ho] at h
          cases h
        · intro h
          cases h with
          | scalar hv => cases hv
          | boxed ho' | container ho' =>
            rw [ho] at ho'
            cases ho'
      | some o =>
        rw [get_bind, ho]
        exact jsonObject_ok_iff ih ho
    | bigInt =>
      refine iff_of_false ?_ ?_
      · rintro ⟨vm₁, h, -⟩
        cases h
      · intro h
        cases h with
        | scalar hv => cases hv
    | _ =>
      constructor
      · rintro ⟨vm₁, h, rfl⟩
        cases h
        exact .scalar rfl
      · intro h
        cases h with
        | scalar hv =>
          cases hv
          exact ⟨_, rfl, rfl⟩

/-- `JS_JSONStringify` returns exactly by a derivation whose text fits a string. -/
theorem jsJSONStringify_ok_iff :
    (∃ w vm', jsJSONStringify env depth v vm = .ok w vm') ↔ Serialises env depth v vm := by
  have hdup : (modify fun vm : VM => vm.dup v : JS PUnit) vm = .ok () (vm.dup v) := rfl
  unfold jsJSONStringify
  constructor
  · rintro ⟨u, vm', h⟩
    rw [bind_of_ok hdup] at h
    obtain ⟨w, vm₁, hprep, h⟩ := bind_eq_ok.1 h
    rw [jsonCheck_ok_iff] at hprep
    split_ifs at h with hw
    · subst hw
      exact .leftOut hprep
    · obtain ⟨text, vm₂, hwrite, h⟩ := bind_eq_ok.1 h
      split_ifs at h with hfit
      · exact .written hprep hw (jsonToStr_ok_iff.1 hwrite) hfit
      · cases h
  · intro h
    cases h with
    | @leftOut vm₁ hprep =>
      refine ⟨.undefined, vm₁, ?_⟩
      rw [bind_of_ok hdup, bind_of_ok (jsonCheck_ok_iff.2 hprep), if_pos rfl]
      rfl
    | @written w text vm₁ vm₂ hprep hw hwrite hfit =>
      refine ⟨.string vm₂.heap.length (ofCodePoints text), vm₂.alloc .leaf, ?_⟩
      rw [bind_of_ok hdup, bind_of_ok (jsonCheck_ok_iff.2 hprep), if_neg hw,
        bind_of_ok (jsonToStr_ok_iff.2 hwrite), if_pos hfit]
      rfl

end

end QuickjsDart
