import QuickjsDart.Read

/-!
# Plain data

`JsonOf h v j` says that in the heap `h` the value `v` is the JSON value `j` as it stands: scalars,
arrays without holes, and objects whose enumerable properties are values, none of them with a method
`toJSON`. Serialising such a value calls no script and writes its text (`jsonToStr_of_jsonOf`), and
`fromJSVal` reads the data back (`fromJSVal_of_jsonOf`).
-/

namespace QuickjsDart

open Codec

/-- The classes of objects that may be functions. -/
def ObjClass.callable : ObjClass → Bool
  | function _ => true
  | exotic _ => true
  | _ => false

/-- The value is no function. -/
def NotCallable (h : Heap) : JSValue → Prop
  | .object r => ∀ o, h.obj? r = some o → o.cls.callable = false
  | _ => True

/-- The object has no method of that name: along its prototype chain there is no such property, or a
value that is no function. -/
def NoMethod (h : Heap) (name : Utf16) (r : Ref) : Prop :=
  ∀ fuel, getWalk h (.name name) fuel (some r) = .absent ∨
    ∃ v, getWalk h (.name name) fuel (some r) = .value v ∧ NotCallable h v

/-- The value is the JSON value. -/
inductive JsonOf (h : Heap) : JSValue → Json → Prop where
  | null : JsonOf h .null .null
  | bool (b : Bool) : JsonOf h (.bool b) (.bool b)
  | int (n : Int32) : JsonOf h (.int n) (.num (intNumeral n.toInt))
  | float64 (neg : Bool) (m : ℕ) (e : ℤ) (c : Canonical m e) :
      JsonOf h (.float64 (.fin neg m e c)) (.num (jsNumeral neg m e c))
  | str (r : Ref) (s : Utf16) : JsonOf h (.string r s) (.str s)
  | arr {r : Ref} {o : Obj} {n : ℕ} (vals : ℕ → JSValue) (flags : ℕ → Flags) (js : ℕ → Json) :
      h.obj? r = some o → o.cls = .array n → n < 2 ^ 32 → NoMethod h toJSONName r →
      (∀ i < n, o.getOwn (.ofNat i) = some (.data (vals i) (flags i))) →
      (∀ i < n, JsonOf h (vals i) (js i)) → JsonOf h (.object r) (.arr ((List.range n).map js))
  | obj {r : Ref} {o : Obj} (vals : PropKey → JSValue) (flags : PropKey → Flags)
      (js : PropKey → Json) :
      h.obj? r = some o → o.cls = .object → NoMethod h toJSONName r →
      (∀ k ∈ o.enumKeys, o.getOwn k = some (.data (vals k) (flags k))) →
      (∀ k ∈ o.enumKeys, JsonOf h (vals k) (js k)) →
      JsonOf h (.object r) (.obj (o.enumKeys.map fun k => (k.text.getD [], js k)))

/-- The walk sees the objects of a heap only. -/
theorem getWalk_congr {h h' : Heap} (hobj : h'.obj? = h.obj?) (key : PropKey) (fuel : ℕ)
    (q : Option Ref) : getWalk h' key fuel q = getWalk h key fuel q := by
  induction fuel generalizing q with
  | zero => rfl
  | succ fuel ih =>
    cases q with
    | none => rfl
    | some r => simp only [getWalk, hobj, ih]

/-- A value is one JSON value at most. -/
theorem JsonOf.unique {h : Heap} {v : JSValue} {j j' : Json} (hj : JsonOf h v j)
    (hj' : JsonOf h v j') : j = j' := by
  induction hj generalizing j' with
  | null => cases hj'; rfl
  | bool b => cases hj'; rfl
  | int n => cases hj'; rfl
  | float64 neg m e c => cases hj'; rfl
  | str r s => cases hj'; rfl
  | arr vals flags js ho hc hn hl hget hjs ih =>
    cases hj' with
    | arr vals' flags' js' ho' hc' hn' hl' hget' hjs' =>
      cases ho.symm.trans ho'
      cases hc.symm.trans hc'
      refine congrArg Json.arr (List.map_congr_left fun i hi => ?_)
      have hi := List.mem_range.1 hi
      have hv : vals i = vals' i := by
        injection (hget i hi).symm.trans (hget' i hi) with h
        injection h
      exact ih i hi (hv ▸ hjs' i hi)
    | obj vals' flags' js' ho' hc' =>
      cases ho.symm.trans ho'
      cases hc.symm.trans hc'
  | obj vals flags js ho hc hl hget hjs ih =>
    cases hj' with
    | obj vals' flags' js' ho' hc' hl' hget' hjs' =>
      cases ho.symm.trans ho'
      refine congrArg Json.obj (List.map_congr_left fun k hk => ?_)
      have hv : vals k = vals' k := by
        injection (hget k hk).symm.trans (hget' k hk) with h
        injection h
      rw [ih k hk (hv ▸ hjs' k hk)]
    | arr vals' flags' js' ho' hc' =>
      cases ho.symm.trans ho'
      cases hc.symm.trans hc'

/-! ## Steps that change no object -/

/-- `JS_DupValue` changes no object. -/
@[simp] theorem obj?_heap_dup (vm : VM) (v : JSValue) : (vm.dup v).heap.obj? = vm.heap.obj? := by
  funext x
  simp [VM.dup, VM.mapHeap]

/-- `JS_FreeValue` changes no object. -/
@[simp] theorem obj?_heap_free (vm : VM) (v : JSValue) : (vm.free v).heap.obj? = vm.heap.obj? := by
  funext x
  simp [VM.free, VM.mapHeap]

/-- A cell that is no object adds none. -/
@[simp] theorem obj?_heap_alloc_leaf (vm : VM) : (vm.alloc .leaf).heap.obj? = vm.heap.obj? := by
  funext x
  rw [VM.alloc, VM.mapHeap, Heap.obj?_alloc]
  split_ifs with hx
  · cases ho : vm.heap.obj? x with
    | none => rfl
    | some o => exact absurd (Heap.lt_length_of_obj? ho) (by rw [hx]; exact lt_irrefl _)
  · rfl

variable (env : Env)

/-- An own value is read. -/
theorem jsGetProperty_of_getOwn {vm : VM} {r : Ref} {o : Obj} {key : PropKey} {v : JSValue}
    {fl : Flags} (ho : vm.heap.obj? r = some o) (hc : ∀ id, o.cls ≠ .exotic id)
    (hget : o.getOwn key = some (.data v fl)) :
    jsGetProperty env (.object r) key vm = .ok v (vm.dup v) := by
  have hwalk : getWalk vm.heap key (chainFuel vm.heap) (some r) = .value v := by
    rw [chainFuel, getWalk, ho]
    simp only [hget]
  rw [jsGetProperty, getFrom, hwalk]

/-- Whether a value is a function is told by the objects. -/
theorem isFunction_congr {h h' : Heap} (hobj : h'.obj? = h.obj?) (v : JSValue) :
    isFunction env h' v = isFunction env h v := by
  cases v <;> simp only [isFunction, hobj]

/-- What cannot be called is no function. -/
theorem NotCallable.isFunction {h : Heap} {v : JSValue} (hv : NotCallable h v) :
    isFunction env h v = false := by
  cases v with
  | object r =>
    rw [QuickjsDart.isFunction]
    cases ho : h.obj? r with
    | none => rfl
    | some o =>
      have hc := hv o ho
      dsimp only
      cases hcls : o.cls <;> rw [hcls] at hc <;> first | rfl | cases hc
  | _ => rfl

/-- What is read for a method that an object does not have is no function. -/
theorem NoMethod.get {vm : VM} {h : Heap} (hobj : vm.heap.obj? = h.obj?) {name : Utf16} {r : Ref}
    (hm : NoMethod h name r) :
    ∃ v vm', jsGetProperty env (.object r) (.name name) vm = .ok v vm' ∧
      vm'.heap.obj? = h.obj? ∧ QuickjsDart.isFunction env vm'.heap v = false := by
  unfold jsGetProperty getFrom
  dsimp only
  rw [getWalk_congr hobj]
  rcases hm (chainFuel vm.heap) with hw | ⟨v, hw, hv⟩
  · rw [hw]
    exact ⟨.undefined, vm, rfl, hobj, rfl⟩
  · have hobj' : (vm.dup v).heap.obj? = h.obj? := (obj?_heap_dup vm v).trans hobj
    rw [hw]
    exact ⟨v, vm.dup v, rfl, hobj', by rw [isFunction_congr env hobj', hv.isFunction env]⟩

/-- An object that is no function and has no `toJSON` goes through `js_json_check` as it is. -/
theorem jsonCheck_object {vm : VM} {h : Heap} (hobj : vm.heap.obj? = h.obj?) {r : Ref}
    (hm : NoMethod h toJSONName r) (hf : NotCallable h (.object r)) (key : Utf16) :
    ∃ vm', jsonCheck env (.object r) key vm = .ok (.object r) vm' ∧ vm'.heap.obj? = h.obj? := by
  obtain ⟨f, vm₁, hget, hobj₁, hnf⟩ := hm.get env hobj
  have hobj₂ : (vm₁.free f).heap.obj? = h.obj? := (obj?_heap_free vm₁ f).trans hobj₁
  have hcall : callToJSON env (.object r) key vm = .ok (.object r) (vm₁.free f) := by
    unfold callToJSON
    rw [bind_of_ok hget, get_bind, if_neg (Bool.eq_false_iff.1 hnf)]
    rfl
  have hfree : ¬ isFunction env (vm₁.free f).heap (.object r) = true := by
    rw [isFunction_congr env hobj₂, hf.isFunction env]
    exact nofun
  refine ⟨vm₁.free f, ?_, hobj₂⟩
  unfold jsonCheck
  dsimp only
  rw [bind_of_ok hcall]
  unfold jsonKeep
  dsimp only
  rw [get_bind, if_neg hfree]
  rfl

/-- Plain data goes through `js_json_check` as it is. -/
theorem jsonCheck_of_jsonOf {h : Heap} {v : JSValue} {j : Json} (hj : JsonOf h v j) {vm : VM}
    (hobj : vm.heap.obj? = h.obj?) (key : Utf16) :
    ∃ vm', jsonCheck env v key vm = .ok v vm' ∧ vm'.heap.obj? = h.obj? ∧ v ≠ .undefined := by
  cases hj with
  | null => exact ⟨vm, rfl, hobj, nofun⟩
  | bool b => exact ⟨vm, rfl, hobj, nofun⟩
  | int n => exact ⟨vm, rfl, hobj, nofun⟩
  | float64 neg m e c => exact ⟨vm, rfl, hobj, nofun⟩
  | str r s => exact ⟨vm, rfl, hobj, nofun⟩
  | @arr r o n vals flags js ho hc hn hl hget hjs =>
    obtain ⟨vm', hrun, hobj'⟩ := jsonCheck_object env hobj hl (fun o' ho' => by
      cases ho.symm.trans ho'
      rw [hc]
      rfl) key
    exact ⟨vm', hrun, hobj', nofun⟩
  | @obj r o vals flags js ho hc hl hget hjs =>
    obtain ⟨vm', hrun, hobj'⟩ := jsonCheck_object env hobj hl (fun o' ho' => by
      cases ho.symm.trans ho'
      rw [hc]
      rfl) key
    exact ⟨vm', hrun, hobj', nofun⟩

/-! ## Serialising -/

/-- The computation writes the text and changes no object. -/
def Writes (h : Heap) (run : JS (List ℕ)) (text : List ℕ) : Prop :=
  ∀ vm, vm.heap.obj? = h.obj? → ∃ vm', run vm = .ok text vm' ∧ vm'.heap.obj? = h.obj?

/-- A value is released after its text was written. -/
theorem Writes.releasing {h : Heap} {run : JS (List ℕ)} {text : List ℕ} (hw : Writes h run text)
    (v : JSValue) : Writes h (releasing v run) text := by
  intro vm hobj
  obtain ⟨vm', hrun, hobj'⟩ := hw vm hobj
  refine ⟨vm'.free v, ?_, by rw [obj?_heap_free, hobj']⟩
  unfold QuickjsDart.releasing
  rw [hrun]

/-- A text at hand. -/
theorem writes_pure (h : Heap) (text : List ℕ) : Writes h (pure text) text := fun vm hobj =>
  ⟨vm, rfl, hobj⟩

/-- The elements with the closing bracket, after a comma unless they are the first. -/
def elemsText (first : Bool) : List Json → List ℕ
  | [] => [0x5D]
  | e :: es => (if first then [] else [0x2C]) ++ (e.write ++ Json.writeElems es)

/-- The members with the closing brace, after a comma unless they are the first. -/
def membersText (first : Bool) : List (Utf16 × Json) → List ℕ
  | [] => [0x7D]
  | (k, v) :: ms => (if first then [] else [0x2C]) ++
      (Json.quote k ++ (0x3A :: (v.write ++ Json.writeMembers ms)))

/-- The elements after the first are written with a comma in front. -/
theorem elemsText_false (es : List Json) : elemsText false es = Json.writeElems es := by
  cases es with
  | nil => rw [Json.writeElems]; rfl
  | cons e es => rw [Json.writeElems]; rfl

/-- The members after the first are written with a comma in front. -/
theorem membersText_false (ms : List (Utf16 × Json)) :
    membersText false ms = Json.writeMembers ms := by
  cases ms with
  | nil => rw [Json.writeMembers]; rfl
  | cons m ms => rw [Json.writeMembers]; rfl

/-- An array is written element by element. -/
theorem write_arr (es : List Json) : (Json.arr es).write = 0x5B :: elemsText true es := by
  cases es with
  | nil => rw [Json.write]; rfl
  | cons e es => rw [Json.write]; rfl

/-- An object is written member by member. -/
theorem write_obj (ms : List (Utf16 × Json)) :
    (Json.obj ms).write = 0x7B :: membersText true ms := by
  cases ms with
  | nil => rw [Json.write]; rfl
  | cons m ms => rw [Json.write]; rfl

section

variable {h : Heap} {r : Ref} {o : Obj} {toStr : JSValue → JS (List ℕ)}

/-- A value that a container holds is read and checked. -/
theorem readMember {key : PropKey} {v : JSValue} {fl : Flags} {j : Json} {vm : VM}
    (ho : h.obj? r = some o) (hc : ∀ id, o.cls ≠ .exotic id)
    (hget : o.getOwn key = some (.data v fl)) (hj : JsonOf h v j) (hobj : vm.heap.obj? = h.obj?)
    (name : Utf16) :
    ∃ vm₁ vm₂, jsGetProperty env (.object r) key vm = .ok v vm₁ ∧
      jsonCheck env v name vm₁ = .ok v vm₂ ∧ vm₂.heap.obj? = h.obj? ∧ v ≠ .undefined := by
  have ho' : vm.heap.obj? r = some o := by rw [hobj, ho]
  obtain ⟨vm₂, hcheck, hobj₂, hne⟩ :=
    jsonCheck_of_jsonOf env hj ((obj?_heap_dup vm v).trans hobj) name
  exact ⟨_, vm₂, jsGetProperty_of_getOwn env ho' hc hget, hcheck, hobj₂, hne⟩

/-- The loop over the elements, from `i` on. -/
theorem writes_jsonElems {n : ℕ} {vals : ℕ → JSValue} {flags : ℕ → Flags} {js : ℕ → Json}
    (ho : h.obj? r = some o) (hc : ∀ id, o.cls ≠ .exotic id)
    (hget : ∀ i < n, o.getOwn (.ofNat i) = some (.data (vals i) (flags i)))
    (hjs : ∀ i < n, JsonOf h (vals i) (js i))
    (hstr : ∀ i < n, Writes h (toStr (vals i)) (js i).write) {i k : ℕ} (hik : i + k = n) :
    Writes h (jsonElems env toStr (.object r) i k)
      (elemsText (i == 0) ((List.range' i k).map js)) := by
  induction k generalizing i with
  | zero => exact writes_pure h _
  | succ k ih =>
    intro vm hobj
    have hi : i < n := by omega
    obtain ⟨vm₁, vm₂, hrun₁, hrun₂, hobj₂, hne⟩ :=
      readMember env ho hc (hget i hi) (hjs i hi) hobj (natText i)
    obtain ⟨vm₃, hrun₃, hobj₃⟩ := hstr i hi vm₂ hobj₂
    obtain ⟨vm₄, hrun₄, hobj₄⟩ := ih (i := i + 1) (by omega) vm₃ hobj₃
    refine ⟨vm₄, ?_, hobj₄⟩
    rw [jsonElems, bind_of_ok hrun₁, bind_of_ok hrun₂, if_neg hne, bind_of_ok hrun₃,
      bind_of_ok hrun₄, List.range'_succ, List.map_cons, elemsText]
    cases i with
    | zero =>
      exact congrArg (fun t => EStateM.Result.ok ((js 0).write ++ t) vm₄) (elemsText_false _)
    | succ i =>
      exact congrArg (fun t => EStateM.Result.ok (0x2C :: ((js (i + 1)).write ++ t)) vm₄)
        (elemsText_false _)

/-- The loop over the keys. -/
theorem writes_jsonMembers {vals : PropKey → JSValue} {flags : PropKey → Flags}
    {js : PropKey → Json} {keys : List PropKey} (ho : h.obj? r = some o)
    (hc : ∀ id, o.cls ≠ .exotic id)
    (hget : ∀ k ∈ keys, o.getOwn k = some (.data (vals k) (flags k)))
    (hjs : ∀ k ∈ keys, JsonOf h (vals k) (js k))
    (hstr : ∀ k ∈ keys, Writes h (toStr (vals k)) (js k).write) (hasContent : Bool) :
    Writes h (jsonMembers env toStr (.object r) hasContent keys)
      (membersText (!hasContent) (keys.map fun k => (k.text.getD [], js k))) := by
  induction keys generalizing hasContent with
  | nil => exact writes_pure h _
  | cons k ks ih =>
    intro vm hobj
    have hk : k ∈ k :: ks := List.mem_cons_self
    obtain ⟨vm₁, vm₂, hrun₁, hrun₂, hobj₂, hne⟩ :=
      readMember env ho hc (hget k hk) (hjs k hk) hobj (k.text.getD [])
    obtain ⟨vm₃, hrun₃, hobj₃⟩ := hstr k hk vm₂ hobj₂
    obtain ⟨vm₄, hrun₄, hobj₄⟩ := ih (fun l hl => hget l (List.mem_cons_of_mem _ hl))
      (fun l hl => hjs l (List.mem_cons_of_mem _ hl))
      (fun l hl => hstr l (List.mem_cons_of_mem _ hl)) true vm₃ hobj₃
    refine ⟨vm₄, ?_, hobj₄⟩
    rw [jsonMembers, bind_of_ok hrun₁, bind_of_ok hrun₂, if_neg hne, bind_of_ok hrun₃,
      bind_of_ok hrun₄, List.map_cons, membersText, ← membersText_false]
    cases hasContent <;> rfl

end

/-- The length of an array. -/
theorem jsToLength_intValue {n : ℕ} (hn : n < 2 ^ 32) (vm : VM) :
    jsToLength env (intValue n) vm = .ok n vm := by
  unfold intValue
  split_ifs with h
  · have h₁ : (Int32.ofInt n).toInt = n := by
      rw [Int32.toInt_ofInt_of_le (by omega) (by omega)]
    show EStateM.Result.ok (Int32.ofInt n).toInt.toNat vm = _
    rw [h₁, Int.toNat_natCast]
  · have habs : |(n : ℤ)| < 2 ^ 53 := by
      rw [Nat.abs_cast]
      omega
    have htr : (Binary64.ofInt n).trunc = n := Binary64.trunc_ofInt habs
    have hfin := (Binary64.toRat_ofInt habs).1
    have hrun : ∀ d : Binary64, d.isFinite = true → d.trunc = n →
        jsToLength env (.float64 d) vm = .ok n vm := by
      rintro (_ | s | ⟨s, m, e, c⟩) hd ht
      · cases hd
      · cases hd
      · show EStateM.Result.ok (min (Binary64.fin s m e c).trunc.toNat (2 ^ 53 - 1)) vm = _
        rw [ht, Int.toNat_natCast, min_eq_left (by omega)]
    exact hrun _ hfin htr

/-- The loop over the elements of an array. -/
theorem writes_jsonContainer_arr {h : Heap} {r : Ref} {o : Obj} {n : ℕ} {vals : ℕ → JSValue}
    {flags : ℕ → Flags} {js : ℕ → Json} {toStr : JSValue → JS (List ℕ)} (ho : h.obj? r = some o)
    (hc : o.cls = .array n) (hn : n < 2 ^ 32)
    (hget : ∀ i < n, o.getOwn (.ofNat i) = some (.data (vals i) (flags i)))
    (hjs : ∀ i < n, JsonOf h (vals i) (js i))
    (hstr : ∀ i < n, Writes h (toStr (vals i)) (js i).write) :
    Writes h (jsonContainer env toStr r o) (Json.arr ((List.range n).map js)).write := by
  intro vm hobj
  have hex : ∀ id, o.cls ≠ .exotic id := fun id => by rw [hc]; exact nofun
  have ho' : vm.heap.obj? r = some o := by rw [hobj, ho]
  have hlen : o.getOwn (.name lengthName) = some (.data (intValue n) ⟨true, false, false⟩) := by
    simp [Obj.getOwn, hc]
  have harr : jsIsArray env r o vm = .ok true vm := by
    rw [jsIsArray, hc]
    rfl
  obtain ⟨vm₂, hrun₂, hobj₂⟩ := writes_jsonElems env ho hex hget hjs hstr (Nat.zero_add n)
    (vm.dup (intValue n)) (by rw [obj?_heap_dup, hobj])
  refine ⟨vm₂, ?_, hobj₂⟩
  rw [jsonContainer, bind_of_ok harr, if_pos rfl,
    bind_of_ok (jsGetProperty_of_getOwn env ho' hex hlen),
    bind_of_ok (jsToLength_intValue env hn _),
    bind_of_ok hrun₂, write_arr, List.range_eq_range']
  rfl

/-- The loop over the members of an object. -/
theorem writes_jsonContainer_obj {h : Heap} {r : Ref} {o : Obj} {vals : PropKey → JSValue}
    {flags : PropKey → Flags} {js : PropKey → Json} {toStr : JSValue → JS (List ℕ)}
    (ho : h.obj? r = some o) (hc : o.cls = .object)
    (hget : ∀ k ∈ o.enumKeys, o.getOwn k = some (.data (vals k) (flags k)))
    (hjs : ∀ k ∈ o.enumKeys, JsonOf h (vals k) (js k))
    (hstr : ∀ k ∈ o.enumKeys, Writes h (toStr (vals k)) (js k).write) :
    Writes h (jsonContainer env toStr r o)
      (Json.obj (o.enumKeys.map fun k => (k.text.getD [], js k))).write := by
  intro vm hobj
  have hex : ∀ id, o.cls ≠ .exotic id := fun id => by rw [hc]; exact nofun
  have harr : jsIsArray env r o vm = .ok false vm := by
    rw [jsIsArray, hc]
    rfl
  have hkeys : jsonKeys env r o vm = .ok o.enumKeys vm := by
    rw [jsonKeys, hc]
    rfl
  obtain ⟨vm₂, hrun₂, hobj₂⟩ := writes_jsonMembers env ho hex hget hjs hstr false vm hobj
  refine ⟨vm₂, ?_, hobj₂⟩
  rw [jsonContainer, bind_of_ok harr, if_neg nofun, bind_of_ok hkeys, bind_of_ok hrun₂, write_obj]
  rfl

/-- An object that is not on the stack is written. -/
theorem writes_jsonValue_object {h : Heap} {r : Ref} {o : Obj} {text : List ℕ} {stack : List Ref}
    {toStr : List Ref → JSValue → JS (List ℕ)} (ho : h.obj? r = some o)
    (hw : Writes h (jsonObject env stack (toStr (r :: stack)) r o) text) :
    Writes h (jsonValue env stack toStr (.object r)) text := by
  intro vm hobj
  obtain ⟨vm', hrun, hobj'⟩ := hw vm hobj
  refine ⟨vm', ?_, hobj'⟩
  unfold jsonValue
  dsimp only
  rw [get_bind, hobj, ho]
  exact hrun

/-- The recursion of `js_json_to_str`, which has a bound in the model. -/
theorem writes_jsonToStr {h : Heap} {v : JSValue} {text : List ℕ} {depth : ℕ} {stack : List Ref}
    (hd : 0 < depth) (hw : Writes h (jsonValue env stack (jsonToStr env (depth - 1)) v) text) :
    Writes h (jsonToStr env depth stack v) text := by
  obtain ⟨d, rfl⟩ : ∃ d, depth = d + 1 := ⟨depth - 1, by omega⟩
  rw [jsonToStr]
  exact hw.releasing v

/-- What an object holds is not as deep as the objects around it. -/
theorem JsonOf.depth_lt_stack {h : Heap} {r : Ref} {j k : Json} {stack : List Ref}
    (hj : JsonOf h (.object r) j) (hk : k.depth < j.depth)
    (hs : ∀ s ∈ stack, ∀ j', JsonOf h (.object s) j' → j.depth < j'.depth) :
    ∀ s ∈ r :: stack, ∀ j', JsonOf h (.object s) j' → k.depth < j'.depth := by
  intro s hs' j' hj'
  rcases List.mem_cons.1 hs' with rfl | hs'
  · rwa [hj'.unique hj]
  · exact hk.trans (hs s hs' j' hj')

/-- **Serialising plain data.** Given the depth, and where none of the enclosing objects is nested
in the value, `js_json_to_str` writes the text. -/
theorem jsonToStr_of_jsonOf {h : Heap} {v : JSValue} {j : Json} (hj : JsonOf h v j) {depth : ℕ}
    (hd : j.depth < depth) {stack : List Ref}
    (hs : ∀ s ∈ stack, ∀ j', JsonOf h (.object s) j' → j.depth < j'.depth) :
    Writes h (jsonToStr env depth stack v) j.write := by
  induction hj generalizing depth stack with
  | null => exact writes_jsonToStr env (Nat.zero_lt_of_lt hd) (writes_pure h _)
  | bool b =>
    refine writes_jsonToStr env (Nat.zero_lt_of_lt hd) ?_
    cases b <;> exact writes_pure h _
  | int n => exact writes_jsonToStr env (Nat.zero_lt_of_lt hd) (writes_pure h _)
  | float64 neg m e c => exact writes_jsonToStr env (Nat.zero_lt_of_lt hd) (writes_pure h _)
  | str r s => exact writes_jsonToStr env (Nat.zero_lt_of_lt hd) (writes_pure h _)
  | @arr r o n vals flags js ho hc hn hl hget hjs ih =>
    have hroot := JsonOf.arr vals flags js ho hc hn hl hget hjs
    have hr : r ∉ stack := fun hr => lt_irrefl _ (hs r hr _ hroot)
    have hsub : ∀ i < n, (js i).depth < (Json.arr ((List.range n).map js)).depth := fun i hi =>
      Nat.lt_succ_of_le (Json.depth_le_depthElems (List.mem_map.2 ⟨i, List.mem_range.2 hi, rfl⟩))
    refine writes_jsonToStr env (Nat.zero_lt_of_lt hd) (writes_jsonValue_object env ho ?_)
    rw [jsonObject, hc]
    dsimp only
    rw [if_neg hr]
    exact writes_jsonContainer_arr env ho hc hn hget hjs fun i hi =>
      ih i hi (Nat.lt_of_lt_of_le (hsub i hi) (Nat.le_sub_one_of_lt hd))
        (hroot.depth_lt_stack (hsub i hi) hs)
  | @obj r o vals flags js ho hc hl hget hjs ih =>
    have hroot := JsonOf.obj vals flags js ho hc hl hget hjs
    have hr : r ∉ stack := fun hr => lt_irrefl _ (hs r hr _ hroot)
    have hsub : ∀ k ∈ o.enumKeys, (js k).depth
        < (Json.obj (o.enumKeys.map fun k => (k.text.getD [], js k))).depth := fun k hk =>
      Nat.lt_succ_of_le (Json.depth_le_depthMembers (List.mem_map.2 ⟨k, hk, rfl⟩))
    refine writes_jsonToStr env (Nat.zero_lt_of_lt hd) (writes_jsonValue_object env ho ?_)
    rw [jsonObject, hc]
    dsimp only
    rw [if_neg hr]
    exact writes_jsonContainer_obj env ho hc hget hjs fun k hk =>
      ih k hk (Nat.lt_of_lt_of_le (hsub k hk) (Nat.le_sub_one_of_lt hd))
        (hroot.depth_lt_stack (hsub k hk) hs)

/-! ## Reading -/

/-- The text fits a string of QuickJS. -/
def TextFits (j : Json) : Prop := (ofCodePoints j.write).length ≤ stringLenMax

/-- The bound of a text can be computed. -/
instance (j : Json) : Decidable (TextFits j) := inferInstanceAs (Decidable (_ ≤ _))

/-- `JS_JSONStringify` of plain data comes to the end of the text. -/
theorem jsJSONStringify_eq {vm : VM} {v : JSValue} {j : Json} (hj : JsonOf vm.heap v j)
    {depth : ℕ} (hd : j.depth < depth) :
    ∃ vm', vm'.heap.obj? = vm.heap.obj? ∧ jsJSONStringify env depth v vm =
      (if TextFits j then jsNewString (ofCodePoints j.write)
        else throw (.error "string too long") : JS JSValue) vm' := by
  obtain ⟨vm₁, hrun₁, hobj₁, hne⟩ :=
    jsonCheck_of_jsonOf env hj (obj?_heap_dup vm v) []
  have hwrites : Writes vm.heap (jsonToStr env depth [] v) j.write :=
    jsonToStr_of_jsonOf env hj hd nofun
  obtain ⟨vm₂, hrun₂, hobj₂⟩ := hwrites vm₁ hobj₁
  have hdup : (modify fun vm => vm.dup v : JS Unit) vm = .ok () (vm.dup v) := rfl
  refine ⟨vm₂, hobj₂, ?_⟩
  rw [jsJSONStringify, bind_of_ok hdup, bind_of_ok hrun₁, if_neg hne, bind_of_ok hrun₂]
  rfl

/-- `JS_JSONStringify` of plain data is its text, in a string of its own. -/
theorem jsJSONStringify_of_jsonOf {vm : VM} {v : JSValue} {j : Json} (hj : JsonOf vm.heap v j)
    {depth : ℕ} (hd : j.depth < depth) (hfit : TextFits j) :
    ∃ r vm', jsJSONStringify env depth v vm = .ok (.string r (ofCodePoints j.write)) vm' ∧
      vm'.heap.obj? = vm.heap.obj? := by
  obtain ⟨vm₂, hobj, hrun⟩ := jsJSONStringify_eq env hj hd
  rw [if_pos hfit] at hrun
  exact ⟨_, vm₂.alloc .leaf, hrun, by rw [obj?_heap_alloc_leaf, hobj]⟩

/-- The string of a JSON text is read by Dart as it stands. -/
theorem dartString_write (j : Json) :
    dartString (ofCodePoints j.write) = some (ofCodePoints j.write) := by
  have hscalar : ∀ c ∈ j.write, Scalar c := fun c hc => (Json.scalar_of_mem_write j hc).1
  have hcp : codePoints (ofCodePoints j.write) = j.write := codePoints_ofCodePoints hscalar
  refine dartString_eq_some (wellFormed_ofCodePoints hscalar) ?_ ?_
  · rw [← zero_mem_codePoints, hcp]
    exact fun h₀ => (Json.scalar_of_mem_write j h₀).2 rfl
  · intro hbom
    have := head?_codePoints_eq_bom.2 hbom
    rw [hcp] at this
    obtain ⟨c, cs, hw, hc⟩ := Json.exists_starts_write j
    rw [hw, List.head?_cons, Option.some_inj] at this
    exact hc.2.2 this

/-- A string is its own text. -/
theorem jsToString_string (r : Ref) (s : Utf16) (vm : VM) :
    jsToString env (.string r s) vm = .ok s vm := rfl

/-- `toDartString` of a string decodes what `JS_ToCString` encodes. -/
theorem toDartString_string_eq_ok {r : Ref} {s t : Utf16} {vm vm' : VM} :
    toDartString env (.string r s) vm = .ok t vm' ↔ dartString s = some t ∧ vm = vm' := by
  unfold toDartString
  rw [jsToString_string]
  dsimp only
  cases dartString s with
  | none => simp
  | some u => simp

/-- Plain data is no function, so that its type is `object` where it is one. -/
theorem JsonOf.valueType_object {h : Heap} {r : Ref} {j : Json} (hj : JsonOf h (.object r) j) :
    valueType env h (.object r) = .object := by
  cases hj with
  | arr vals flags js ho hc => simp [valueType, isFunction, ho, hc]
  | obj vals flags js ho hc => simp [valueType, isFunction, ho, hc]

/-- `Array.isArray` does not throw on plain data. -/
theorem isArray_of_jsonOf {vm : VM} {r : Ref} {j : Json} (hj : JsonOf vm.heap (.object r) j) :
    ∃ b, isArray env (.object r) vm = .ok b vm := by
  cases hj with
  | arr vals flags js ho hc =>
    refine ⟨true, ?_⟩
    rw [isArray, ho]
    exact ffi_of_ok (by rw [jsIsArray, hc]; rfl)
  | obj vals flags js ho hc =>
    refine ⟨false, ?_⟩
    rw [isArray, ho]
    exact ffi_of_ok (by rw [jsIsArray, hc]; rfl)

/-- `toJSONString` of an array or object of plain data. -/
theorem toJSONString_of_jsonOf {vm : VM} {r : Ref} {j : Json} (hj : JsonOf vm.heap (.object r) j)
    {depth : ℕ} (hd : j.depth < depth) (hfit : TextFits j) :
    ∃ vm', toJSONString env depth (.object r) vm = .ok (ofCodePoints j.write) vm' ∧
      vm'.heap.obj? = vm.heap.obj? := by
  obtain ⟨x, vm₁, hrun, hobj⟩ := jsJSONStringify_of_jsonOf env hj hd hfit
  refine ⟨vm₁, ?_, hobj⟩
  have hread : toDartString env (.string x (ofCodePoints j.write)) vm₁
      = .ok (ofCodePoints j.write) vm₁ := by
    rw [toDartString, jsToString_string]
    dsimp only
    rw [dartString_write]
  have hseq : (ffi .exception (jsJSONStringify env depth (.object r)) >>= toDartString env) vm
      = .ok (ofCodePoints j.write) vm₁ := by
    rw [bind_of_ok (ffi_of_ok hrun), hread]
  rw [toJSONString, if_neg (by rw [hj.valueType_object env]; exact nofun), hseq]

/-- **Containers of plain data are read back.** -/
theorem fromJSVal_of_jsonOf {vm : VM} {r : Ref} {j : Json} (hj : JsonOf vm.heap (.object r) j)
    {depth : ℕ} (hd : j.depth < depth) (hfit : TextFits j) :
    ∃ vm', fromJSVal env depth (.object r) vm = .ok (dartOfJson j) vm' ∧
      vm'.heap.obj? = vm.heap.obj? := by
  obtain ⟨vm₁, hrun, hobj⟩ := toJSONString_of_jsonOf env hj hd hfit
  obtain ⟨b, harr⟩ := isArray_of_jsonOf env hj
  refine ⟨vm₁, ?_, hobj⟩
  have hdecode : jsonDecode (ofCodePoints j.write) vm₁ = .ok (dartOfJson j) vm₁ := by
    have hscalar : ∀ c ∈ j.write, Scalar c := fun c hc => (Json.scalar_of_mem_write j hc).1
    rw [jsonDecode, codePoints_ofCodePoints hscalar, Json.parse_write]
    rfl
  rw [fromJSVal, hj.valueType_object env]
  dsimp only
  rw [bind_of_ok harr, if_pos (by cases b <;> rfl), bind_of_ok hrun, hdecode]

/-- A text that is too long is a null pointer. -/
theorem fromJSVal_of_not_textFits {vm : VM} {r : Ref} {j : Json}
    (hj : JsonOf vm.heap (.object r) j) {depth : ℕ} (hd : j.depth < depth) (hfit : ¬ TextFits j) :
    ∃ vm', fromJSVal env depth (.object r) vm = .error .crash vm' := by
  obtain ⟨vm₂, -, hrun⟩ := jsJSONStringify_eq env hj hd
  rw [if_neg hfit] at hrun
  obtain ⟨b, harr⟩ := isArray_of_jsonOf env hj
  have hffi : ffi .exception (jsJSONStringify env depth (.object r)) vm
      = .ok .exception { vm₂ with currentException := some (.error "string too long") } := by
    unfold ffi
    rw [hrun]
    rfl
  have hseq : (ffi .exception (jsJSONStringify env depth (.object r)) >>= toDartString env) vm
      = .error .crash { vm₂ with currentException := some (.error "string too long") } := by
    rw [bind_of_ok hffi]
    rfl
  have hjson : toJSONString env depth (.object r) vm
      = .error .crash { vm₂ with currentException := some (.error "string too long") } := by
    rw [toJSONString, if_neg (by rw [hj.valueType_object env]; exact nofun), hseq]
  refine ⟨{ vm₂ with currentException := some (.error "string too long") }, ?_⟩
  rw [fromJSVal, hj.valueType_object env]
  dsimp only
  rw [bind_of_ok harr, if_pos (by cases b <;> rfl), bind_of_error hjson]

end QuickjsDart
