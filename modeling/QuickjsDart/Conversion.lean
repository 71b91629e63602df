import QuickjsDart.Engine

/-!
# Walks over a conversion

`toJSVal` makes cells for its value and puts members in new objects and arrays. A `Conversion` is a
property of states that is kept by these steps, told by the rules for each of them; the walk over
the value is done here, for every such property. It is by induction on the value, and covers also
the conversions that throw midway.
-/

namespace QuickjsDart

open Codec

/-- How a step that may throw ends: the states are related, what it returns is as `Q` says, and what
it throws as `Err` says. -/
def EndsIn {ε α : Type} (To : VM → VM → Prop) (Err : ε → Prop) (vm : VM) (Q : α → VM → Prop) :
    EStateM.Result ε VM α → Prop
  | .ok a vm' => To vm vm' ∧ Q a vm'
  | .error e vm' => To vm vm' ∧ Err e

/-- Where a step ends, the states are related. -/
theorem EndsIn.endState {ε α : Type} {To : VM → VM → Prop} {Err : ε → Prop} {vm : VM}
    {Q : α → VM → Prop} {res : EStateM.Result ε VM α} (h : EndsIn To Err vm Q res) :
    To vm (endState res) := by
  cases res with
  | ok a vm' => exact h.1
  | error e vm' => exact h.1

/-- A step of whose result nothing is said. -/
theorem endsIn_of_to {ε α : Type} {To : VM → VM → Prop} {Err : ε → Prop} {vm : VM}
    {res : EStateM.Result ε VM α} (h : To vm (endState res))
    (herr : ∀ e vm', res = .error e vm' → Err e) : EndsIn To Err vm (fun _ _ => True) res := by
  cases res with
  | ok a vm' => exact ⟨h, trivial⟩
  | error e vm' => exact ⟨h, herr e vm' rfl⟩

/-- One step after the other. -/
theorem EndsIn.bind {ε α β : Type} {To : VM → VM → Prop} {Err : ε → Prop} {vm : VM}
    {x : EStateM ε VM α} {f : α → EStateM ε VM β} {Q : α → VM → Prop} {R : β → VM → Prop}
    (hx : EndsIn To Err vm Q (x vm))
    (htrans : ∀ {vm₁ vm₂ vm₃}, To vm₁ vm₂ → To vm₂ vm₃ → To vm₁ vm₃)
    (hf : ∀ a vm₁, To vm vm₁ → Q a vm₁ → EndsIn To Err vm₁ R (f a vm₁)) :
    EndsIn To Err vm R ((x >>= f) vm) := by
  cases hrun : x vm with
  | ok a vm₁ =>
    rw [hrun] at hx
    rw [bind_of_ok hrun]
    have hnext := hf a vm₁ hx.1 hx.2
    cases hrun₂ : f a vm₁ with
    | ok b vm₂ =>
      rw [hrun₂] at hnext
      exact ⟨htrans hx.1 hnext.1, hnext.2⟩
    | error e vm₂ =>
      rw [hrun₂] at hnext
      exact ⟨htrans hx.1 hnext.1, hnext.2⟩
  | error e vm₁ =>
    rw [hrun] at hx
    rw [bind_of_error hrun]
    exact hx

/-- The classes that a conversion builds and assigns to. -/
def ObjClass.isPlain : ObjClass → Bool
  | object => true
  | array _ => true
  | _ => false

/-- A property that the steps of a conversion keep. -/
structure Conversion (env : Env) where
  /-- The states that a step may start in. -/
  Good : VM → Prop
  /-- What a step makes of a state. -/
  To : VM → VM → Prop
  /-- A value that may be put in a property. -/
  Val : VM → JSValue → Prop
  /-- A property of an object that may be assigned. -/
  Site : VM → JSValue → PropName → Prop
  /-- A fault that a step may end with, besides what Dart throws. -/
  Faulty : Fault → Prop
  refl : ∀ {vm}, Good vm → To vm vm
  trans : ∀ {vm₁ vm₂ vm₃}, To vm₁ vm₂ → To vm₂ vm₃ → To vm₁ vm₃
  good : ∀ {vm vm'}, Good vm → To vm vm' → Good vm'
  valKept : ∀ {vm vm' v}, Val vm v → To vm vm' → Val vm' v
  siteKept : ∀ {vm vm' t name}, Site vm t name → To vm vm' → Site vm' t name
  scalar : ∀ {vm v}, v.ref? = none → Val vm v
  newString : ∀ {vm} s, Good vm → To vm (vm.alloc .leaf) ∧
    Val (vm.alloc .leaf) (.string vm.heap.length (ffiString s))
  newObject : ∀ {vm vm' v}, Good vm → newObject vm = .ok v vm' →
    To vm vm' ∧ Val vm' v ∧ ∀ name, Site vm' v name
  newArray : ∀ {vm vm' v}, Good vm → newArray vm = .ok v vm' →
    To vm vm' ∧ Val vm' v ∧ ∀ i, Site vm' v (.int i)
  throws : ∀ err, Faulty (.throws err)
  store : ∀ {vm t name v}, Good vm → Site vm t name → Val vm v →
    EndsIn To Faulty vm (fun _ _ => True) (setProperty env t name v true vm)
  handler : ∀ {vm t name} h, Good vm → Site vm t name →
    EndsIn To Faulty vm (fun _ _ => True) (createNewFunction env name h (some t) vm)

namespace Conversion

variable {α β : Type} {env : Env} {C : Conversion env} {vm : VM}

/-- How a step of a conversion ends. -/
abbrev Ends {α : Type} (C : Conversion env) (vm : VM) (Q : α → VM → Prop) :
    EStateM.Result Fault VM α → Prop := EndsIn C.To C.Faulty vm Q

/-- The rest of a conversion may use what its first step returned. -/
theorem Ends.bind {x : Dart α} {f : α → Dart β} {Q : α → VM → Prop} {R : β → VM → Prop}
    (hx : C.Ends vm Q (x vm))
    (hf : ∀ a vm₁, C.To vm vm₁ → Q a vm₁ → C.Ends vm₁ R (f a vm₁)) :
    C.Ends vm R ((x >>= f) vm) := EndsIn.bind hx C.trans hf

/-- A value at hand. -/
theorem ends_pure (hg : C.Good vm) {Q : α → VM → Prop} {a : α} (ha : Q a vm) :
    C.Ends vm Q ((pure a : Dart α) vm) := ⟨C.refl hg, ha⟩

/-- A value that refers to nothing is made without a step. -/
theorem ends_scalar (hg : C.Good vm) {v : JSValue} (hv : v.ref? = none) :
    C.Ends vm (fun v vm' => C.Val vm' v) ((pure v : Dart JSValue) vm) :=
  ends_pure hg (C.scalar hv)

/-- A Dart error is thrown before anything is changed. -/
theorem ends_throw (hg : C.Good vm) {Q : α → VM → Prop} (err : DartError) :
    C.Ends vm Q ((throw (.throws err) : Dart α) vm) := ⟨C.refl hg, C.throws err⟩

/-- A new string is a value of the conversion. -/
theorem ends_newString (hg : C.Good vm) (s : Utf16) :
    C.Ends vm (fun v vm' => C.Val vm' v) (QuickjsDart.newString s vm) := C.newString s hg

/-- A value is put in a property. -/
theorem Ends.store {x : Dart JSValue} (hx : C.Ends vm (fun v vm' => C.Val vm' v) (x vm))
    (hg : C.Good vm) {t : JSValue} {name : PropName} (ht : C.Site vm t name) :
    C.Ends vm (fun _ _ => True) ((x >>= fun v => setProperty env t name v true) vm) :=
  hx.bind fun _ _ hto hv => C.store (C.good hg hto) (C.siteKept ht hto) hv

mutual

/-- A list becomes a new array, which is filled and returned. -/
theorem createJSArray : ∀ (elems : List DartVal) {vm : VM}, C.Good vm →
    C.Ends vm (fun v vm' => C.Val vm' v) (createJSArray env elems vm) := by
  intro elems vm hg
  rw [QuickjsDart.createJSArray]
  refine Ends.bind (Q := fun v vm' => C.Val vm' v ∧ ∀ i, C.Site vm' v (.int i))
    (C.newArray hg rfl) fun v vm₁ h₁ hv => ?_
  refine (setElements 0 elems (C.good hg h₁) hv.2).bind fun _ vm₂ h₂ _ => ?_
  exact ends_pure (C.good (C.good hg h₁) h₂) (C.valKept hv.1 h₂)

/-- The loop over the elements of a list. Each goes to its index. -/
theorem setElements : ∀ (i : ℕ) (elems : List DartVal) {vm : VM}, C.Good vm → ∀ {t : JSValue},
    (∀ i, C.Site vm t (.int i)) →
    C.Ends vm (fun _ _ => True) (setElements env t i elems vm)
  | i, [], vm, hg, t, _ => by
    rw [QuickjsDart.setElements]
    exact ends_pure hg trivial
  | i, x :: rest, vm, hg, t, ht => by
    rw [QuickjsDart.setElements]
    refine (setMember x hg (ht _)).bind fun _ vm₁ h₁ _ => ?_
    exact setElements (i + 1) rest (C.good hg h₁) fun i => C.siteKept (ht i) h₁

/-- A map becomes a new object, which is filled and returned. -/
theorem createJSObject : ∀ (entries : List (Option Utf16 × DartVal)) {vm : VM}, C.Good vm →
    C.Ends vm (fun v vm' => C.Val vm' v) (createJSObject env entries vm) := by
  intro entries vm hg
  rw [QuickjsDart.createJSObject]
  refine Ends.bind (Q := fun v vm' => C.Val vm' v ∧ ∀ name, C.Site vm' v name)
    (C.newObject hg rfl) fun v vm₁ h₁ hv => ?_
  refine (setEntries entries (C.good hg h₁) hv.2).bind fun _ vm₂ h₂ _ => ?_
  exact ends_pure (C.good (C.good hg h₁) h₂) (C.valKept hv.1 h₂)

/-- The loop over the entries of a map. Each goes to its key, where it has one. -/
theorem setEntries : ∀ (entries : List (Option Utf16 × DartVal)) {vm : VM}, C.Good vm →
    ∀ {t : JSValue}, (∀ name, C.Site vm t name) →
    C.Ends vm (fun _ _ => True) (setEntries env t entries vm)
  | [], vm, hg, t, _ => by
    rw [QuickjsDart.setEntries]
    exact ends_pure hg trivial
  | (key, x) :: rest, vm, hg, t, ht => by
    rw [QuickjsDart.setEntries]
    refine (setMember x hg (ht _)).bind fun _ vm₁ h₁ _ => ?_
    exact setEntries rest (C.good hg h₁) fun name => C.siteKept (ht name) h₁

/-- A member is converted and stored, or refused. The cases are those of the type tests. -/
theorem setMember : ∀ (x : DartVal) {vm : VM}, C.Good vm → ∀ {t : JSValue} {name : PropName},
    C.Site vm t name → C.Ends vm (fun _ _ => True) (setMember env t name x vm)
  | .int i, vm, hg, t, name, ht => by
    rw [QuickjsDart.setMember]
    exact (ends_scalar hg rfl).store hg ht
  | .string s, vm, hg, t, name, ht => by
    rw [QuickjsDart.setMember]
    exact (ends_newString hg s).store hg ht
  | .bool b, vm, hg, t, name, ht => by
    rw [QuickjsDart.setMember]
    exact (ends_scalar hg rfl).store hg ht
  | .double d, vm, hg, t, name, ht => by
    rw [QuickjsDart.setMember]
    exact ends_pure hg trivial
  | .list elems, vm, hg, t, name, ht => by
    rw [QuickjsDart.setMember]
    exact (createJSArray elems hg).store hg ht
  | .map entries, vm, hg, t, name, ht => by
    rw [QuickjsDart.setMember]
    exact (createJSObject entries hg).store hg ht
  | .otherMap s, vm, hg, t, name, ht => by
    rw [QuickjsDart.setMember]
    exact ends_throw hg _
  | .handler h, vm, hg, t, name, ht => by
    rw [QuickjsDart.setMember]
    exact C.handler h hg ht
  | .null, vm, hg, t, name, ht => by
    simp only [QuickjsDart.setMember]
    exact ends_throw hg _
  | .jsValue v, vm, hg, t, name, ht => by
    simp only [QuickjsDart.setMember]
    exact ends_throw hg _
  | .future id, vm, hg, t, name, ht => by
    simp only [QuickjsDart.setMember]
    exact ends_throw hg _
  | .other s, vm, hg, t, name, ht => by
    simp only [QuickjsDart.setMember]
    exact ends_throw hg _

end

/-- A double refers to nothing, whichever representation it gets. -/
theorem ref?_jsNewFloat64 (d : Binary64) : (jsNewFloat64 d).ref? = none := by
  unfold jsNewFloat64
  split_ifs <;> rfl

/-- An integer refers to nothing, whichever representation it gets. -/
theorem ref?_intValue (i : ℤ) : (intValue i).ref? = none := by
  unfold intValue
  split_ifs <;> rfl

/-- `toJSVal`, also where it throws midway. -/
theorem toJSVal (x : DartVal) (hg : C.Good vm) :
    C.Ends vm (fun v vm' => C.Val vm' v) (toJSVal env x vm) := by
  cases x with
  | int i =>
    rw [QuickjsDart.toJSVal]
    split_ifs
    · exact ends_scalar hg (ref?_intValue _)
    · exact ends_scalar hg rfl
  | double d =>
    rw [QuickjsDart.toJSVal]
    exact ends_scalar hg (ref?_jsNewFloat64 d)
  | string s =>
    rw [QuickjsDart.toJSVal]
    exact ends_newString hg s
  | bool b =>
    rw [QuickjsDart.toJSVal]
    exact ends_scalar hg rfl
  | list elems =>
    rw [QuickjsDart.toJSVal]
    exact C.createJSArray elems hg
  | map entries =>
    rw [QuickjsDart.toJSVal]
    exact C.createJSObject entries hg
  | _ =>
    simp only [QuickjsDart.toJSVal]
    exact ends_throw hg _

end Conversion

end QuickjsDart
