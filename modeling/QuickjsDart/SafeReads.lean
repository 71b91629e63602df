import QuickjsDart.Plain
import QuickjsDart.ReadRules

/-!
# Reads that survive

`toCString` hands what `JS_ToCString` returns to `strlen`. `Readable` says of which values that is
never the null pointer, for the three reads of the Dart side, by the rules of what they run
(`reads_safe_iff`). What a value must not hold follows from the rules, at any depth: an object that
is around it (`not_jsonText_cycle`), a BigInt (`not_jsonText_bigInt`), a method or a getter that
throws (`not_jsonChecked_throws`, `not_gets_throws`).
-/

namespace QuickjsDart

open Codec

/-- The computation returns or throws a Dart error. -/
def Safe {α : Type} (act : Dart α) (vm : VM) : Prop := ∀ vm', act vm ≠ .error .crash vm'

/-- `JS_ToStringInternal` has a text for a value that is no object. -/
def JSValue.HasText : JSValue → Prop
  | symbol _ => False
  | exception => False
  | _ => True

/-- The value has a text, or is an object whose primitive value has one. -/
def Textual (env : Env) (v : JSValue) (vm : VM) : Prop :=
  v.HasText ∧ ∀ r, v = .object r → ∃ p vm', Primitive env r vm p vm' ∧ p.HasText

/-- The state after `isArray` has asked an object. An exotic one may raise instead of answering,
which leaves the exception pending. -/
inductive AsksArray (env : Env) (r : Ref) (vm : VM) : VM → Prop where
  | answered {o : Obj} {b : Bool} {vm' : VM} (ho : vm.heap.obj? r = some o)
      (hask : IsArray env r o vm b vm') : AsksArray env r vm vm'
  | raised {o : Obj} {id : ℕ} {e : JSFault} {vm' : VM} (ho : vm.heap.obj? r = some o)
      (hcls : o.cls = .exotic id) (hask : env.isArrayExotic r vm = .error e vm') (he : e ≠ .crash) :
      AsksArray env r vm { vm' with currentException := some e }

/-- The value can be read in the three ways. `fromJSVal` serialises an object that is no function,
after it has asked whether it is an array. -/
structure Readable (env : Env) (depth : ℕ) (v : JSValue) (vm : VM) : Prop where
  text : Textual env v vm
  json : valueType env vm.heap v ≠ .unknown → Serialises env depth v vm
  object : ∀ r, v = .object r → isFunction env vm.heap v = false →
    ∃ vm', AsksArray env r vm vm' ∧ Serialises env depth v vm'

section

variable {env : Env} {depth : ℕ} {v : JSValue} {vm : VM}

/-! ## Strings -/

/-- A value has a text where the text of primitives gives one. -/
theorem hasText_iff : v.HasText ↔ ∃ s, primitiveText v = .ok s := by
  cases v with
  | symbol r =>
    refine iff_of_false id ?_
    rintro ⟨s, h⟩
    cases h
  | exception =>
    refine iff_of_false id ?_
    rintro ⟨s, h⟩
    cases h
  | _ => exact iff_of_true trivial ⟨_, rfl⟩

/-- So `JS_ToStringInternal` of a primitive does. -/
theorem jsPrimitiveText_ok_iff (v : JSValue) (vm : VM) :
    (∃ s vm', jsPrimitiveText v vm = .ok s vm') ↔ v.HasText := by
  rw [hasText_iff]
  unfold jsPrimitiveText
  cases primitiveText v with
  | ok s => exact iff_of_true ⟨s, vm, rfl⟩ ⟨s, rfl⟩
  | error m =>
    refine iff_of_false ?_ ?_
    · rintro ⟨s, vm', h⟩
      cases h
    · rintro ⟨s, h⟩
      cases h

/-- What is no object is not made a primitive. -/
theorem jsToString_of_not_object (hv : v.isObject = false) :
    jsToString env v = jsPrimitiveText v := if_neg (Bool.eq_false_iff.1 hv)

/-- `JS_ToString` has a text for what is textual. -/
theorem jsToString_ok_iff : (∃ s vm', jsToString env v vm = .ok s vm') ↔ Textual env v vm := by
  unfold Textual
  cases v with
  | object r =>
    refine Iff.trans ?_ ⟨fun h => ⟨trivial, fun q hq => by cases hq; exact h⟩, fun h => h.2 r rfl⟩
    constructor
    · rintro ⟨s, vm', h⟩
      obtain ⟨p, vm₁, hp, hs, -⟩ := jsToString_object_ok_iff.1 h
      exact ⟨p, vm₁, hp, hasText_iff.2 ⟨s, hs⟩⟩
    · rintro ⟨p, vm₁, hp, htext⟩
      obtain ⟨s, hs⟩ := hasText_iff.1 htext
      exact ⟨s, _, jsToString_object_ok_iff.2 ⟨p, vm₁, hp, hs, rfl⟩⟩
  | _ =>
    rw [jsToString_of_not_object rfl, jsPrimitiveText_ok_iff]
    exact ⟨fun h => ⟨h, nofun⟩, fun h => h.1⟩

/-- `strlen` gets a string where the conversion does not raise. -/
theorem toDartString_safe_iff : Safe (toDartString env v) vm ↔ Textual env v vm := by
  rw [← jsToString_ok_iff]
  unfold Safe toDartString
  cases jsToString env v vm with
  | error e vm' =>
    refine iff_of_false (fun h => h vm' rfl) ?_
    rintro ⟨s, vm'', h⟩
    cases h
  | ok s vm' =>
    refine iff_of_true ?_ ⟨s, vm', rfl⟩
    intro vm'' h
    dsimp only at h
    cases hs : dartString s <;> rw [hs] at h <;> cases h

/-! ## Containers -/

/-- The result of a serialisation has a text. -/
theorem jsJSONStringify_textual {w : JSValue} {vm' : VM}
    (h : jsJSONStringify env depth v vm = .ok w vm') : Textual env w vm' := by
  have hw : w = .undefined ∨ ∃ r s, w = .string r s := by
    unfold jsJSONStringify at h
    obtain ⟨-, vm₁, -, h⟩ := bind_eq_ok.1 h
    obtain ⟨val, vm₂, -, h⟩ := bind_eq_ok.1 h
    split_ifs at h
    · cases h
      exact .inl rfl
    · obtain ⟨text, vm₃, -, h⟩ := bind_eq_ok.1 h
      split_ifs at h
      · cases h
        exact .inr ⟨_, _, rfl⟩
      · cases h
  rcases hw with rfl | ⟨r, s, rfl⟩
  · exact ⟨trivial, nofun⟩
  · exact ⟨trivial, nofun⟩

/-- The marker that a failed serialisation returns has no text. -/
theorem not_textual_exception (env : Env) (vm : VM) : ¬ Textual env .exception vm := fun h => h.1

/-- `toJSONStringVal` without its `catch`. -/
theorem stringify_safe_iff :
    Safe (ffi .exception (jsJSONStringify env depth v) >>= toDartString env) vm ↔
      Serialises env depth v vm := by
  rw [← jsJSONStringify_ok_iff]
  cases hrun : jsJSONStringify env depth v vm with
  | ok w vm' =>
    refine iff_of_true ?_ ⟨w, vm', rfl⟩
    intro vm'' h
    rw [bind_of_ok (ffi_of_ok hrun)] at h
    exact toDartString_safe_iff.2 (jsJSONStringify_textual hrun) vm'' h
  | error e vm' =>
    refine iff_of_false (fun hsafe => ?_) (by rintro ⟨w, vm'', h⟩; cases h)
    by_cases he : e = .crash
    · subst he
      have hffi : ffi .exception (jsJSONStringify env depth v) vm = .error .crash vm' := by
        unfold ffi
        rw [hrun]
      exact hsafe vm' (bind_of_error hffi)
    · have hffi : ffi .exception (jsJSONStringify env depth v) vm
          = .ok .exception { vm' with currentException := some e } := by
        unfold ffi
        rw [hrun]
        cases e <;> first | rfl | exact absurd rfl he
      refine not_textual_exception env { vm' with currentException := some e }
        (toDartString_safe_iff.1 fun vm'' h => ?_)
      exact hsafe vm'' ((bind_of_ok hffi).trans h)

/-- `toJSONString` is safe where the value is serialised, or never comes to that. -/
theorem toJSONString_safe_iff : Safe (toJSONString env depth v) vm ↔
    (valueType env vm.heap v ≠ .unknown → Serialises env depth v vm) := by
  by_cases hu : valueType env vm.heap v = .unknown
  · refine iff_of_true ?_ fun h => absurd hu h
    intro vm' h
    unfold toJSONString at h
    rw [if_pos hu] at h
    cases h
  · rw [← stringify_safe_iff, forall_prop_of_true hu]
    unfold Safe toJSONString
    rw [if_neg hu]
    refine forall_congr' fun vm' => ?_
    cases (ffi .exception (jsJSONStringify env depth v) >>= toDartString env) vm with
    | ok s vm₁ => exact Iff.rfl
    | error e vm₁ =>
      cases e with
      | crash => exact Iff.rfl
      | throws d => exact iff_of_true (fun h => by cases h) fun h => by cases h

/-- An object has a type. -/
theorem valueType_unknown_of_object {r : Ref} (h : Heap) :
    valueType env h (.object r) ≠ .unknown := by
  show (if isFunction env h (.object r) then JSValueType.function else .object) ≠ .unknown
  split_ifs <;> intro h <;> cases h

/-- Decoding a text throws Dart errors only. -/
theorem jsonDecode_safe (s : Utf16) (vm : VM) : Safe (jsonDecode s) vm := by
  intro vm' h
  unfold jsonDecode at h
  cases hp : Json.parse (codePoints s) <;> rw [hp] at h <;> cases h

/-- A bind whose second part survives. -/
theorem safe_bind_iff {α β : Type} {x : Dart α} {f : α → Dart β} (hf : ∀ a vm, Safe (f a) vm) :
    Safe (x >>= f) vm ↔ Safe x vm := by
  unfold Safe
  refine forall_congr' fun vm' => not_congr ?_
  rw [bind_eq_error]
  constructor
  · rintro (h | ⟨a, vm₁, -, h⟩)
    · exact h
    · exact absurd h (hf a vm₁ vm')
  · exact .inl

/-- `isArray` does not throw. -/
theorem isArray_error {e : Fault} {vm' : VM} (h : isArray env v vm = .error e vm') :
    e = .crash := by
  unfold isArray at h
  cases v with
  | object r =>
    dsimp only at h
    cases ho : vm.heap.obj? r with
    | none =>
      rw [ho] at h
      cases h
      rfl
    | some o =>
      rw [ho] at h
      exact ffi_error h
  | _ => cases h

/-- `isArray` comes back where the object answers or raises. -/
theorem isArray_ok_iff {r : Ref} {vm' : VM} :
    (∃ b, isArray env (.object r) vm = .ok b vm') ↔ AsksArray env r vm vm' := by
  unfold isArray
  dsimp only
  constructor
  · rintro ⟨b, h⟩
    cases ho : vm.heap.obj? r with
    | none =>
      rw [ho] at h
      cases h
    | some o =>
      rw [ho] at h
      dsimp only at h
      unfold ffi at h
      cases hrun : jsIsArray env r o vm with
      | ok b' vm₁ =>
        rw [hrun] at h
        cases h
        exact .answered ho (jsIsArray_ok_iff.1 hrun)
      | error e vm₁ =>
        rw [hrun] at h
        unfold jsIsArray at hrun
        cases hcls : o.cls with
        | exotic id =>
          rw [hcls] at hrun
          cases e with
          | crash => cases h
          | error m =>
            cases h
            exact .raised ho hcls hrun nofun
          | value w =>
            cases h
            exact .raised ho hcls hrun nofun
        | _ =>
          rw [hcls] at hrun
          cases hrun
  · intro h
    cases h with
    | answered ho hask =>
      rw [ho]
      exact ⟨_, ffi_of_ok (jsIsArray_ok_iff.2 hask)⟩
    | @raised o id e vm₁ ho hcls hask he =>
      rw [ho]
      refine ⟨true, ?_⟩
      have hrun : jsIsArray env r o vm = .error e vm₁ := by
        unfold jsIsArray
        rw [hcls]
        exact hask
      dsimp only
      unfold ffi
      rw [hrun]
      cases e with
      | crash => exact absurd rfl he
      | error | value => rfl

/-- An object that is no function is read through its text. -/
theorem fromJSVal_object {r : Ref} (hv : valueType env vm.heap (.object r) = .object) :
    fromJSVal env depth (.object r) vm
      = (isArray env (.object r) >>= fun _ =>
          toJSONString env depth (.object r) >>= jsonDecode) vm := by
  unfold fromJSVal
  rw [hv]
  dsimp only [JSValue.isObject]
  simp only [Bool.or_true, if_true]

/-- An object is read as one unless it is a function. -/
theorem valueType_object_iff {r : Ref} {h : Heap} :
    valueType env h (.object r) = .object ↔ isFunction env h (.object r) = false := by
  show (if isFunction env h (.object r) then JSValueType.function else .object) = _ ↔ _
  cases isFunction env h (.object r) with
  | true => exact iff_of_false nofun nofun
  | false => exact iff_of_true rfl rfl

/-- `fromJSVal` reads text only of strings and of objects that are no functions. -/
theorem fromJSVal_safe_iff : Safe (fromJSVal env depth v) vm ↔
    ∀ r, v = .object r → isFunction env vm.heap v = false →
      ∃ vm', AsksArray env r vm vm' ∧ Serialises env depth v vm' := by
  cases v with
  | object r =>
    by_cases ht : valueType env vm.heap (.object r) = .object
    · refine Iff.trans ?_ (Iff.symm ⟨fun h => h r rfl (valueType_object_iff.1 ht),
        fun h q hq _ => by cases hq; exact h⟩)
      simp only [← isArray_ok_iff]
      unfold Safe
      rw [fromJSVal_object ht]
      cases hrun : isArray env (.object r) vm with
      | ok b vm₁ =>
        have hread : Safe (toJSONString env depth (.object r) >>= jsonDecode) vm₁ ↔
            Serialises env depth (.object r) vm₁ := by
          rw [safe_bind_iff jsonDecode_safe, toJSONString_safe_iff,
            forall_prop_of_true (valueType_unknown_of_object _)]
        rw [bind_of_ok hrun]
        refine hread.trans ⟨fun h => ⟨vm₁, ⟨b, rfl⟩, h⟩, ?_⟩
        rintro ⟨vm₂, ⟨b', heq⟩, h⟩
        cases heq
        exact h
      | error e vm₁ =>
        have hcrash : e = .crash := isArray_error hrun
        refine iff_of_false (fun h => h vm₁ ?_) ?_
        · rw [bind_of_error hrun, hcrash]
        · rintro ⟨vm₂, ⟨b, heq⟩, -⟩
          cases heq
    · have hfun : isFunction env vm.heap (.object r) = true := by
        cases hf : isFunction env vm.heap (.object r) with
        | true => rfl
        | false => exact absurd (valueType_object_iff.2 hf) ht
      refine iff_of_true (fun vm' h => ?_) fun q hq hno => ?_
      · have htype : valueType env vm.heap (.object r) = .function := if_pos hfun
        unfold fromJSVal at h
        rw [htype] at h
        cases h
      · rw [hfun] at hno
        cases hno
  | string r s =>
    refine iff_of_true (fun vm' h => ?_) nofun
    have htext : Safe (toDartString env (.string r s)) vm :=
      toDartString_safe_iff.2 ⟨trivial, nofun⟩
    exact (safe_bind_iff fun s vm vm' h => by cases h).2 htext vm' h
  | float64 d =>
    refine iff_of_true (fun vm' h => ?_) nofun
    unfold fromJSVal at h
    dsimp only [valueType] at h
    split_ifs at h
  | int n =>
    refine iff_of_true (fun vm' h => ?_) nofun
    unfold fromJSVal at h
    dsimp only [valueType] at h
    split_ifs at h
  | _ => exact iff_of_true (fun vm' h => by cases h) nofun

/-! ## The three reads -/

/-- The three reads are safe exactly for the values that are readable by the rules. -/
theorem reads_safe_iff (env : Env) (depth : ℕ) (v : JSValue) (vm : VM) :
    (Safe (toDartString env v) vm ∧ Safe (toJSONString env depth v) vm ∧
        Safe (fromJSVal env depth v) vm) ↔ Readable env depth v vm := by
  rw [toDartString_safe_iff, toJSONString_safe_iff, fromJSVal_safe_iff]
  constructor
  · rintro ⟨htext, hjson, hobj⟩
    exact ⟨htext, hjson, hobj⟩
  · intro h
    exact ⟨h.text, h.json, h.object⟩

end

/-! ## What makes a read fail -/

section

variable {env : Env} {depth : ℕ} {stack : List Ref} {v w : JSValue} {vm vm' : VM}

/-- A BigInt has no JSON text. -/
theorem not_jsonText_bigInt {q : Ref} {n : ℤ} {text : List ℕ} :
    ¬ JsonText env depth stack (.bigInt q n) vm text vm' := by
  intro h
  cases h with
  | scalar hv => cases hv

/-- An object or array has no JSON text inside itself. -/
theorem not_jsonText_cycle {r : Ref} {o : Obj} {text : List ℕ} (ho : vm.heap.obj? r = some o)
    (hcls : o.cls.isContainer = true) (hstack : r ∈ stack) :
    ¬ JsonText env depth stack (.object r) vm text vm' := by
  intro h
  cases h with
  | scalar hv => cases hv
  | boxed ho' hb hbox =>
    cases ho.symm.trans ho'
    rw [hb, hbox.not_container] at hcls
    cases hcls
  | container _ _ hnot => exact hnot hstack

/-- A property is read in one way. -/
theorem Gets.unique {start : Option Ref} {this u : JSValue} {key : PropKey} {vm'' : VM}
    (h : Gets env start this key vm w vm') (h' : Gets env start this key vm u vm'') :
    w = u ∧ vm' = vm'' := by
  have heq := (getFrom_ok_iff.2 h).symm.trans (getFrom_ok_iff.2 h')
  cases heq
  exact ⟨rfl, rfl⟩

/-- A property whose getter throws has no value. -/
theorem not_gets_throws {start : Option Ref} {this : JSValue} {key : PropKey} {f : Ref}
    {e : JSFault} {vm₁ : VM}
    (hwalk : getWalk vm.heap key (chainFuel vm.heap) start = .getter (some f))
    (hf : isProtoSetter vm.heap f = false) (hcall : env.call f this [] vm = .error e vm₁) :
    ¬ Gets env start this key vm w vm' := by
  intro h
  have hrun := getFrom_ok_iff.2 h
  unfold getFrom at hrun
  rw [hwalk] at hrun
  dsimp only at hrun
  unfold callAccessor at hrun
  rw [if_neg (Bool.eq_false_iff.1 hf), hcall] at hrun
  cases hrun

/-- A value whose `toJSON` throws is not serialised. -/
theorem not_jsonChecked_throws {start : Option Ref} {key : Utf16} {f : JSValue} {vm₁ : VM}
    (hv : toJSONStart env v = some start) (hget : Gets env start v (.name toJSONName) vm f vm₁)
    (hf : isFunction env vm₁.heap f = true)
    (hthrow : ∀ u vm₂,
      ¬ Returns env v [.string vm₁.heap.length key] (vm₁.alloc .leaf) f u vm₂) :
    ¬ JsonChecked env v key vm w vm' := by
  intro h
  cases h with
  | plain hnone =>
    rw [hv] at hnone
    cases hnone
  | toJSON hv' hget' _ hcall =>
    cases hv.symm.trans hv'
    obtain ⟨rfl, rfl⟩ := hget.unique hget'
    exact hthrow _ _ hcall
  | noToJSON hv' hget' hno =>
    cases hv.symm.trans hv'
    obtain ⟨rfl, rfl⟩ := hget.unique hget'
    rw [hf] at hno
    cases hno

end

/-! ## Values inside values -/

/-- The keys that are serialised of an array or a plain object. -/
def Obj.HasJsonKey (o : Obj) (key : PropKey) : Prop :=
  match o.cls with
  | .array n => ∃ i < n, key = .ofNat i
  | _ => key ∈ o.enumKeys

/-- Objects and arrays of values that hold one another, where serialising runs no script. -/
structure Inert (env : Env) (h : Heap) (T : Ref → Prop) : Prop where
  cls : ∀ r, T r → ∃ o, h.obj? r = some o ∧
    (o.cls = .object ∨ ∃ n, o.cls = .array n ∧ n < 2 ^ 32)
  data : ∀ r o key, T r → h.obj? r = some o → o.HasJsonKey key →
    ∃ v fl, o.getOwn key = some (.data v fl) ∧ ∀ x, v = .object x → T x
  noToJSON : ∀ r, T r → NoMethod h toJSONName r
  bigInt : ∀ q n p, env.primitiveProto (.bigInt q n) = some p → NoMethod h toJSONName p

/-- The object holds the value. -/
def HoldsValue (h : Heap) (r : Ref) (v : JSValue) : Prop :=
  ∃ o key fl, h.obj? r = some o ∧ o.HasJsonKey key ∧ o.getOwn key = some (.data v fl)

/-- A value inside a value, with the objects around it. -/
inductive Nested (h : Heap) (v : JSValue) : List Ref → JSValue → Prop where
  | self : Nested h v [] v
  | held {stack : List Ref} {r : Ref} {w : JSValue} (hr : Nested h v stack (.object r))
      (hw : HoldsValue h r w) : Nested h v (r :: stack) w

section

variable {env : Env} {h : Heap} {T : Ref → Prop} {depth : ℕ} {stack : List Ref} {v w : JSValue}
  {vm vm' : VM}

/-- The value of a property that is one. -/
theorem Gets.of_getOwn {r : Ref} {o : Obj} {key : PropKey} {fl : Flags}
    (hget : Gets env (some r) (.object r) key vm w vm') (ho : vm.heap.obj? r = some o)
    (hcls : ∀ id, o.cls ≠ .exotic id) (hown : o.getOwn key = some (.data v fl)) :
    w = v ∧ vm' = vm.dup v := by
  have heq := (jsGetProperty_object_ok_iff.2 hget).symm.trans
    (jsGetProperty_of_getOwn env ho hcls hown)
  cases heq
  exact ⟨rfl, rfl⟩

/-- A method that is nowhere on the chain is read as no function. -/
theorem Gets.of_noMethod {start : Option Ref} {name : Utf16} {f : JSValue} {vm₁ : VM}
    (hget : Gets env start v (.name name) vm f vm₁) (hobj : vm.heap.obj? = h.obj?)
    (hm : ∀ p, start = some p → NoMethod h name p) :
    vm₁.heap.obj? = h.obj? ∧ isFunction env vm₁.heap f = false := by
  have hwalk : getWalk vm.heap (.name name) (chainFuel vm.heap) start = .absent ∨
      ∃ u, getWalk vm.heap (.name name) (chainFuel vm.heap) start = .value u ∧
        NotCallable h u := by
    rw [getWalk_congr hobj]
    cases start with
    | none => exact .inl rfl
    | some p => exact hm p rfl _
  have hrun := getFrom_ok_iff.2 hget
  unfold getFrom at hrun
  rcases hwalk with hw | ⟨u, hw, hu⟩
  · rw [hw] at hrun
    cases hrun
    exact ⟨hobj, rfl⟩
  · rw [hw] at hrun
    cases hrun
    have hobj' : (vm.dup f).heap.obj? = h.obj? := (obj?_heap_dup vm f).trans hobj
    exact ⟨hobj', by rw [isFunction_congr env hobj', hu.isFunction env]⟩

/-- The values of inert data that are asked for `toJSON` have none, and none is left out. -/
theorem Inert.start (hT : Inert env h T) (hin : ∀ x, v = .object x → T x) {start : Option Ref}
    (hv : toJSONStart env v = some start) :
    (∀ p, start = some p → NoMethod h toJSONName p) ∧
      ∀ h' : Heap, h'.obj? = h.obj? → leftOut env h' v = false := by
  cases v with
  | object r =>
    cases hv
    refine ⟨fun p hp => ?_, fun h' hobj => ?_⟩
    · cases hp
      exact hT.noToJSON r (hin r rfl)
    · obtain ⟨o, ho, hcls⟩ := hT.cls r (hin r rfl)
      show isFunction env h' (.object r) = false
      rw [isFunction_congr env hobj]
      refine NotCallable.isFunction env fun o' ho' => ?_
      cases ho.symm.trans ho'
      rcases hcls with hc | ⟨n, hc, -⟩ <;> rw [hc] <;> rfl
  | bigInt q n =>
    cases hv
    exact ⟨fun p hp => hT.bigInt q n p hp, fun h' _ => rfl⟩
  | _ => cases hv

/-- What is seen of a value in inert data: the value itself, unless it is a scalar. -/
theorem Inert.jsonChecked (hT : Inert env h T) (hobj : vm.heap.obj? = h.obj?)
    (hin : ∀ x, v = .object x → T x) {key : Utf16} (hc : JsonChecked env v key vm w vm') :
    vm'.heap.obj? = h.obj? ∧ (∀ x, w = .object x → T x) ∧
      (toJSONStart env v ≠ none → w = v) := by
  cases hv : toJSONStart env v with
  | none =>
    cases hc with
    | plain _ hkeep =>
      cases hkeep with
      | kept => exact ⟨hobj, hin, fun hne => absurd rfl hne⟩
      | leftOut => exact ⟨(obj?_heap_free vm v).trans hobj, nofun, fun hne => absurd rfl hne⟩
    | toJSON hv' | noToJSON hv' =>
      rw [hv] at hv'
      cases hv'
  | some start =>
    obtain ⟨hm, hkept⟩ := hT.start hin hv
    cases hc with
    | plain hv' =>
      rw [hv] at hv'
      cases hv'
    | toJSON hv' hget hf =>
      cases hv.symm.trans hv'
      rw [(hget.of_noMethod hobj hm).2] at hf
      cases hf
    | @noToJSON _ f _ vm₁ _ hv' hget _ hkeep =>
      cases hv.symm.trans hv'
      have hobj' : (vm₁.free f).heap.obj? = h.obj? :=
        (obj?_heap_free vm₁ f).trans (hget.of_noMethod hobj hm).1
      cases hkeep with
      | kept => exact ⟨hobj', hin, fun _ => rfl⟩
      | leftOut hout =>
        rw [hkept _ hobj'] at hout
        cases hout

/-- Some run under `depth` calls writes the value. -/
def WrittenIn (env : Env) (h : Heap) (depth : ℕ) (stack : List Ref) (v : JSValue) : Prop :=
  ∃ vm₁ text vm₂, vm₁.heap.obj? = h.obj? ∧ JsonText env depth stack v vm₁ text vm₂

/-- What is known of the calls for the elements and members, under `depth` of them: they change no
object. -/
def ChangesNothing (env : Env) (h : Heap) (T : Ref → Prop) (depth : ℕ) : Prop :=
  ∀ {stack : List Ref} {v : JSValue} {vm vm' : VM} {text : List ℕ}, vm.heap.obj? = h.obj? →
    (∀ x, v = .object x → T x) → JsonText env depth stack v vm text vm' → vm'.heap.obj? = h.obj?

/-- A property of inert data is read, seen and written. -/
theorem Inert.member (hT : Inert env h T) {r : Ref} {o : Obj} (hr : T r) (ho : h.obj? r = some o)
    {key : PropKey} (hkey : o.HasJsonKey key) (hobj : vm.heap.obj? = h.obj?) {vm₁ vm₂ : VM}
    {name : Utf16} (hget : Gets env (some r) (.object r) key vm v vm₁)
    (hc : JsonChecked env v name vm₁ w vm₂) :
    vm₂.heap.obj? = h.obj? ∧ (∀ x, w = .object x → T x) ∧
      ∀ u fl, o.getOwn key = some (.data u fl) → toJSONStart env u ≠ none → w = u := by
  obtain ⟨o', ho', hcls⟩ := hT.cls r hr
  cases ho.symm.trans ho'
  obtain ⟨u, fl, hown, hin⟩ := hT.data r o key hr ho hkey
  have hne : ∀ id, o.cls ≠ .exotic id := fun id => by
    rcases hcls with hcls | ⟨n, hcls, -⟩ <;> rw [hcls] <;> nofun
  obtain ⟨rfl, rfl⟩ := hget.of_getOwn (by rw [hobj, ho]) hne hown
  obtain ⟨hobj₂, hin₂, hsame⟩ := hT.jsonChecked ((obj?_heap_dup vm v).trans hobj) hin hc
  refine ⟨hobj₂, hin₂, fun u' fl' hown' hu => ?_⟩
  cases hown.symm.trans hown'
  exact hsame hu

/-- The elements of an inert array: nothing changes, and each is written. The induction is on the
number of elements to go. -/
theorem Inert.elems (hT : Inert env h T) (hcall : ChangesNothing env h T depth) {r : Ref} {o : Obj}
    (hr : T r) (ho : h.obj? r = some o) {i n : ℕ} {text : List ℕ}
    (hkeys : ∀ j, i ≤ j → j < i + n → o.HasJsonKey (.ofNat j)) (hobj : vm.heap.obj? = h.obj?)
    (hrun : JsonElems env depth stack r i n vm text vm') :
    vm'.heap.obj? = h.obj? ∧ ∀ j, i ≤ j → j < i + n → ∀ u fl,
      o.getOwn (.ofNat j) = some (.data u fl) → toJSONStart env u ≠ none →
      WrittenIn env h depth stack u := by
  induction n generalizing i vm text with
  | zero =>
    cases hrun
    exact ⟨hobj, fun j hle hlt => by omega⟩
  | succ n ih =>
    cases hrun with
    | @next _ _ _ _ _ v w t rest _ vm₁ vm₂ vm₃ _ hget hprep hwrite hrest =>
      obtain ⟨hobj₂, hin, hsame⟩ := hT.member hr ho (hkeys i le_rfl (by omega)) hobj hget hprep
      have hobj₃ := hcall hobj₂ (fun x hx => by
        split_ifs at hx
        exact hin x hx) hwrite
      obtain ⟨hobj', hall⟩ := ih (fun j hle hlt => hkeys j (by omega) (by omega)) hobj₃ hrest
      refine ⟨hobj', fun j hle hlt u fl hown hu => ?_⟩
      rcases Nat.eq_or_lt_of_le hle with rfl | hlt'
      · cases hsame u fl hown hu
        have hw : w ≠ .undefined := fun hw => hu (by rw [hw]; rfl)
        rw [if_neg hw] at hwrite
        exact ⟨vm₂, t, vm₃, hobj₂, hwrite⟩
      · exact hall j (by omega) (by omega) u fl hown hu

/-- The members of an inert object. -/
theorem Inert.members (hT : Inert env h T) (hcall : ChangesNothing env h T depth) {r : Ref}
    {o : Obj} (hr : T r) (ho : h.obj? r = some o) {hasContent : Bool} {keys : List PropKey}
    {text : List ℕ} (hkeys : ∀ key ∈ keys, o.HasJsonKey key) (hobj : vm.heap.obj? = h.obj?)
    (hrun : JsonMembers env depth stack r hasContent keys vm text vm') :
    vm'.heap.obj? = h.obj? ∧ ∀ key ∈ keys, ∀ u fl, o.getOwn key = some (.data u fl) →
      toJSONStart env u ≠ none → WrittenIn env h depth stack u := by
  induction keys generalizing hasContent vm text with
  | nil =>
    cases hrun
    exact ⟨hobj, nofun⟩
  | cons key keys ih =>
    have hrest' := fun k hk => hkeys k (List.mem_cons_of_mem key hk)
    cases hrun with
    | @leftOut _ _ _ _ _ _ v _ _ vm₁ vm₂ _ hget hprep hrest =>
      obtain ⟨hobj₂, -, hsame⟩ := hT.member hr ho (hkeys key List.mem_cons_self) hobj hget hprep
      obtain ⟨hobj', hall⟩ := ih hrest' hobj₂ hrest
      refine ⟨hobj', fun k hk u fl hown hu => ?_⟩
      rcases List.mem_cons.1 hk with rfl | hk
      · exact absurd (by rw [← hsame u fl hown hu]; rfl) hu
      · exact hall k hk u fl hown hu
    | @next _ _ _ _ _ _ v w t rest _ vm₁ vm₂ vm₃ _ hget hprep hw hwrite hrest =>
      obtain ⟨hobj₂, hin, hsame⟩ := hT.member hr ho (hkeys key List.mem_cons_self) hobj hget hprep
      obtain ⟨hobj', hall⟩ := ih hrest' (hcall hobj₂ hin hwrite) hrest
      refine ⟨hobj', fun k hk u fl hown hu => ?_⟩
      rcases List.mem_cons.1 hk with rfl | hk
      · cases hsame u fl hown hu
        exact ⟨vm₂, t, vm₃, hobj₂, hwrite⟩
      · exact hall k hk u fl hown hu

/-- A container of inert data: nothing changes, and what it holds is written. -/
theorem Inert.body (hT : Inert env h T) (hcall : ChangesNothing env h T depth) {r : Ref} {o : Obj}
    {text : List ℕ} (hr : T r) (ho : h.obj? r = some o) (hobj : vm.heap.obj? = h.obj?)
    (hrun : JsonBody env depth stack r o vm text vm') :
    vm'.heap.obj? = h.obj? ∧ ∀ u, HoldsValue h r u → toJSONStart env u ≠ none →
      WrittenIn env h depth stack u := by
  obtain ⟨o', ho', hcls⟩ := hT.cls r hr
  cases ho.symm.trans ho'
  have hask : ∀ {b vm₁}, IsArray env r o vm b vm₁ → b = o.cls.isArray ∧ vm₁ = vm := by
    rintro b vm₁ (- | hexo)
    · exact ⟨rfl, rfl⟩
    · rcases hcls with hcls | ⟨n, hcls, -⟩ <;> rw [hcls] at hexo <;> cases hexo
  rcases hcls with hcls | ⟨n, hcls, hn⟩
  · -- an object
    cases hrun with
    | array harr =>
      have := (hask harr).1
      rw [hcls] at this
      cases this
    | record harr hkeys hmembers =>
      obtain ⟨-, rfl⟩ := hask harr
      cases hkeys with
      | exotic hexo =>
        rw [hcls] at hexo
        cases hexo
      | plain =>
        obtain ⟨hobj', hall⟩ := hT.members hcall hr ho (fun key hkey => by
          unfold Obj.HasJsonKey
          rw [hcls]
          exact hkey) hobj hmembers
        refine ⟨hobj', ?_⟩
        rintro u ⟨o', key, fl, ho', hkey, hown⟩ hu
        cases ho.symm.trans ho'
        unfold Obj.HasJsonKey at hkey
        rw [hcls] at hkey
        exact hall key hkey u fl hown hu
  · -- an array
    cases hrun with
    | record harr =>
      have := (hask harr).1
      rw [hcls] at this
      cases this
    | @array _ _ _ _ l n' _ _ _ vm₂ vm₃ _ harr hlen hnum helems =>
      obtain ⟨-, rfl⟩ := hask harr
      have hown : o.getOwn (.name lengthName) = some (.data (intValue n) ⟨true, false, false⟩) := by
        simp [Obj.getOwn, hcls]
      have hne : ∀ id, o.cls ≠ .exotic id := by
        intro id hexo
        rw [hcls] at hexo
        cases hexo
      obtain ⟨hl, hvm⟩ := hlen.of_getOwn (by rw [hobj, ho]) hne hown
      rw [hl, ← jsToLength_ok_iff, jsToLength_intValue env hn] at hnum
      injection hnum with hnum hvm'
      rw [← hnum, ← hvm', hvm] at helems
      obtain ⟨hobj', hall⟩ := hT.elems hcall hr ho (fun j _ hj => by
        unfold Obj.HasJsonKey
        rw [hcls]
        exact ⟨j, by omega, rfl⟩) ((obj?_heap_dup _ _).trans hobj) helems
      refine ⟨hobj', ?_⟩
      rintro u ⟨o', key, fl, ho', hkey, hown'⟩ hu
      cases ho.symm.trans ho'
      unfold Obj.HasJsonKey at hkey
      rw [hcls] at hkey
      obtain ⟨j, hj, rfl⟩ := hkey
      exact hall j (Nat.zero_le j) (by omega) u fl hown' hu

/-- Serialising inert data changes no object. The induction is on the depth. -/
theorem Inert.changesNothing (hT : Inert env h T) : ChangesNothing env h T depth := by
  induction depth with
  | zero => exact fun _ _ hrun => nomatch hrun
  | succ depth ih =>
    intro stack v vm vm' text hobj hin hrun
    cases hrun with
    | scalar => exact (obj?_heap_free vm v).trans hobj
    | boxed ho hb =>
      obtain ⟨o, ho', hcls⟩ := hT.cls _ (hin _ rfl)
      rw [hobj] at ho
      cases ho.symm.trans ho'
      rcases hcls with hcls | ⟨n, hcls, -⟩ <;> rw [hb] at hcls <;> cases hcls
    | container ho _ _ hbody =>
      rw [hobj] at ho
      exact (obj?_heap_free _ _).trans (hT.body ih (hin _ rfl) ho hobj hbody).1

/-- What an object of inert data holds is written, one level deeper. -/
theorem Inert.held (hT : Inert env h T) {r : Ref} (hr : T r)
    (hrun : WrittenIn env h depth stack (.object r)) (hw : HoldsValue h r w)
    (hsolid : toJSONStart env w ≠ none) :
    ∃ depth', depth = depth' + 1 ∧ WrittenIn env h depth' (r :: stack) w := by
  obtain ⟨vm₁, text, vm₂, hobj, hrun⟩ := hrun
  cases hrun with
  | scalar hv => cases hv
  | boxed ho hb =>
    obtain ⟨o, ho', hcls⟩ := hT.cls r hr
    rw [hobj] at ho
    cases ho.symm.trans ho'
    rcases hcls with hcls | ⟨n, hcls, -⟩ <;> rw [hb] at hcls <;> cases hcls
  | container ho _ _ hbody =>
    rw [hobj] at ho
    exact ⟨_, rfl, (hT.body hT.changesNothing hr ho hobj hbody).2 w hw hsolid⟩

/-- What inert data holds at any depth is inert data. -/
theorem Inert.nested (hT : Inert env h T) (hin : ∀ x, v = .object x → T x)
    (hn : Nested h v stack w) : ∀ x, w = .object x → T x := by
  induction hn with
  | self => exact hin
  | held _ hw ih =>
    obtain ⟨o, key, fl, ho, hkey, hown⟩ := hw
    obtain ⟨u, fl', hown', hu⟩ := hT.data _ o key (ih _ rfl) ho hkey
    cases hown.symm.trans hown'
    exact hu

/-- Where inert data is written, everything in it is, at any depth. The induction is on the way
there. -/
theorem Inert.writtenIn (hT : Inert env h T) (hin : ∀ x, v = .object x → T x)
    (hrun : WrittenIn env h depth [] v) (hn : Nested h v stack w)
    (hsolid : toJSONStart env w ≠ none) : ∃ depth', WrittenIn env h depth' stack w := by
  induction hn with
  | self => exact ⟨depth, hrun⟩
  | held hr hw ih =>
    obtain ⟨depth', hrun'⟩ := ih nofun
    obtain ⟨depth'', -, hrun''⟩ := hT.held (hT.nested hin hr _ rfl) hrun' hw hsolid
    exact ⟨depth'', hrun''⟩

/-- Only an object holds anything. -/
theorem Nested.start (hn : Nested h v stack w) (hsolid : toJSONStart env w ≠ none) :
    toJSONStart env v ≠ none := by
  induction hn with
  | self => exact hsolid
  | held _ _ ih => exact ih nofun

/-- Inert data that holds a BigInt, or an object inside itself, is not serialised, however deep that
lies. -/
theorem Inert.not_serialises (hT : Inert env h T) (hin : ∀ x, v = .object x → T x)
    (hobj : vm.heap.obj? = h.obj?) (hn : Nested h v stack w)
    (hbad : (∃ q n, w = .bigInt q n) ∨ ∃ r ∈ stack, w = .object r) :
    ¬ Serialises env depth v vm := by
  intro hser
  have hsolid : toJSONStart env w ≠ none := by
    rcases hbad with ⟨q, n, rfl⟩ | ⟨r, -, rfl⟩ <;> nofun
  have hv := hn.start hsolid
  have hdup : (vm.dup v).heap.obj? = h.obj? := (obj?_heap_dup vm v).trans hobj
  cases hser with
  | leftOut hprep =>
    obtain ⟨-, -, hsame⟩ := hT.jsonChecked hdup hin hprep
    exact hv (by rw [← hsame hv]; rfl)
  | written hprep hw hwrite =>
    obtain ⟨hobj₁, -, hsame⟩ := hT.jsonChecked hdup hin hprep
    rw [hsame hv] at hwrite
    obtain ⟨depth', vm₁, text, vm₂, hobj', hrun⟩ :=
      hT.writtenIn hin ⟨_, _, _, hobj₁, hwrite⟩ hn hsolid
    rcases hbad with ⟨q, n, rfl⟩ | ⟨r, hr, rfl⟩
    · exact not_jsonText_bigInt hrun
    · obtain ⟨o, ho, hcls⟩ := hT.cls r (hT.nested hin hn r rfl)
      refine not_jsonText_cycle (by rw [hobj', ho]) ?_ hr hrun
      rcases hcls with hcls | ⟨n, hcls, -⟩ <;> rw [hcls] <;> rfl

end

/-- The array `a` with `a[0] = a`. -/
def cyclicVM : VM :=
  VM.bare.alloc (.obj ⟨.array 1, some arrayPrototype, true, [(.index 0, .data (.object 9) .cwe)]⟩)

/-- A symbol has no text, and a cyclic array is not serialised. -/
theorem reads_not_safe :
    ¬ Safe (toDartString Env.bare (.symbol symbolToPrimitive)) VM.bare ∧
      ¬ Safe (toJSONString Env.bare 3 (.object 9)) cyclicVM ∧
      ¬ Safe (fromJSVal Env.bare 3 (.object 9)) cyclicVM := by
  have hcyclic : ¬ Serialises Env.bare 3 (.object 9) cyclicVM := by
    rw [← jsJSONStringify_ok_iff]
    rintro ⟨w, vm', h⟩
    cases h
  refine ⟨fun h => (toDartString_safe_iff.1 h).1, fun h => ?_, fun h => ?_⟩
  · exact hcyclic (toJSONString_safe_iff.1 h (by decide))
  · obtain ⟨vm', hask, hser⟩ := fromJSVal_safe_iff.1 h 9 rfl (by decide)
    obtain ⟨b, harr⟩ := isArray_ok_iff.2 hask
    cases harr
    exact hcyclic hser

end QuickjsDart
