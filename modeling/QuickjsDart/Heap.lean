import QuickjsDart.Value
import QuickjsDart.Memory.RefCount
import QuickjsDart.Codec.Numeral

/-!
# The QuickJS heap

Objects with their class, prototype, extensibility and property slots, in a store of reference
counted cells. The references of shapes to the prototypes that the context keeps by itself are left
out on both sides of the account.

`Obj.getOwn` and `Obj.putOwn` are the only ways to the slots, and `Heap.obj?_setObj` with its
companions the only facts about cells that the layers above use.
-/

namespace QuickjsDart

open Codec

/-! ## Property keys -/

/-- An atom: a number below `2 ^ 31`, a string that is no such number, or a symbol. -/
inductive PropKey where
  | index (n : ℕ)
  | name (s : Utf16)
  | symbol (r : Ref)
  deriving DecidableEq

/-- The text of a literal. -/
def asciiUnits (cs : List ℕ) : Utf16 := cs.map UInt16.ofNat

/-- The decimal text of a natural number. -/
def natText (n : ℕ) : Utf16 := asciiUnits ((natDigits n).map digitChar)

/-- The number a string is the decimal text of. -/
def natOfText (s : Utf16) : Option ℕ :=
  match spanDigits (s.map UInt16.toNat) with
  | (d :: ds, []) => if natText (digitsVal (d :: ds)) = s then some (digitsVal (d :: ds)) else none
  | _ => none

/-- `JS_NewAtomStr`: the decimal text of a number up to `JS_ATOM_MAX_INT` is that number. -/
def PropKey.ofString (s : Utf16) : PropKey :=
  match natOfText s with
  | some n => if n < 2 ^ 31 then .index n else .name s
  | none => .name s

/-- `JS_ValueToAtom` of a number tag. -/
def PropKey.ofInt32 (n : Int32) : PropKey :=
  if 0 ≤ n.toInt then .index n.toInt.toNat
  else .name (asciiUnits (0x2D :: (natDigits n.toInt.natAbs).map digitChar))

/-- `JS_NewAtomInt64`: the key of an array element. -/
def PropKey.ofNat (i : ℕ) : PropKey := if i < 2 ^ 31 then .index i else .name (natText i)

/-- `JS_AtomToString` of a key that is no symbol. -/
def PropKey.text : PropKey → Option Utf16
  | index n => some (natText n)
  | name s => some s
  | symbol _ => none

/-- The array index a key is, in the order of own keys: up to `2 ^ 32 - 2`. -/
def PropKey.arrayIndex : PropKey → Option ℕ
  | index n => some n
  | name s =>
    match natOfText s with
    | some n => if n < 2 ^ 32 - 1 then some n else none
    | none => none
  | symbol _ => none

/-! ## Objects -/

/-- The flags of a property. -/
structure Flags where
  writable : Bool
  enumerable : Bool
  configurable : Bool
  deriving DecidableEq

/-- `JS_PROP_C_W_E`. -/
def Flags.cwe : Flags := ⟨true, true, true⟩

/-- `JS_PROP_WRITABLE | JS_PROP_CONFIGURABLE`. -/
def Flags.cw : Flags := ⟨true, false, true⟩

/-- A property: a value, or a pair of functions. -/
inductive Slot where
  | data (v : JSValue) (flags : Flags)
  | accessor (getter setter : Option Ref) (flags : Flags)
  deriving DecidableEq

/-- What a function object runs. The functions of the bridge and the built-in ones it meets are told
apart; the others are script code. -/
inductive FunKind where
  /-- `InvokeDartCallback` with the function data of `installDartHook`. -/
  | dart (data : JSValue)
  /-- The setter of `Object.prototype.__proto__`. -/
  | protoSetter
  /-- `createPromise`, the script function of `_setGlobalPromiseGetter`. -/
  | createPromise
  /-- The resolving functions of a promise. -/
  | resolving (promise : Ref) (reject : Bool)
  | script (code : ℕ)
  deriving DecidableEq

/-- The state of a promise. -/
inductive PromiseState where
  | pending
  | fulfilled (v : JSValue)
  | rejected (v : JSValue)
  deriving DecidableEq

/-- The class of an object. `boxed` are the `String`, `Number`, `Boolean` and `BigInt` objects, and
`exotic` are proxies and the others with property access of their own, among them an array whose
`length` was made read-only. -/
inductive ObjClass where
  | object
  | array (length : ℕ)
  | function (kind : FunKind)
  | promise (state : PromiseState) (alreadyResolved : Bool)
  | boxed (v : JSValue)
  | error
  | arrayBuffer (bytes : List UInt8)
  | exotic (id : ℕ)
  deriving DecidableEq

/-- The class of arrays. -/
def ObjClass.isArray : ObjClass → Bool
  | array _ => true
  | _ => false

/-- An object. Properties are in insertion order. -/
structure Obj where
  cls : ObjClass
  proto : Option Ref
  extensible : Bool
  props : List (PropKey × Slot)

/-- The slot of a key in a property list. -/
def findSlot (key : PropKey) : List (PropKey × Slot) → Option Slot
  | [] => none
  | (k, s) :: rest => if k = key then some s else findSlot key rest

/-- Replace the slot of a key, or add it at the end. -/
def putSlot (key : PropKey) (slot : Slot) : List (PropKey × Slot) → List (PropKey × Slot)
  | [] => [(key, slot)]
  | (k, s) :: rest => if k = key then (k, slot) :: rest else (k, s) :: putSlot key slot rest

/-- The name `length`. -/
def lengthName : Utf16 := asciiUnits [0x6C, 0x65, 0x6E, 0x67, 0x74, 0x68]

/-- `JS_NewInt64`, and `JS_NewUint32` where it is used for lengths: an `int` where it fits. -/
def intValue (n : ℤ) : JSValue :=
  if -2 ^ 31 ≤ n ∧ n < 2 ^ 31 then .int (Int32.ofInt n) else .float64 (Binary64.ofInt n)

/-- The own property of a key; an array has its `length`. -/
def Obj.getOwn (o : Obj) (key : PropKey) : Option Slot :=
  match o.cls with
  | .array len =>
    if key = .name lengthName then some (.data (intValue len) ⟨true, false, false⟩)
    else findSlot key o.props
  | _ => findSlot key o.props

/-- The class after a property of that key was added: an array grows with its indices. -/
def ObjClass.grow (key : PropKey) : ObjClass → ObjClass
  | .array len =>
    match key.arrayIndex with
    | some i => .array (max len (i + 1))
    | none => .array len
  | c => c

/-- The class after a write to that key: only a property that is new makes an array grow. -/
def Obj.clsWith (o : Obj) (key : PropKey) : ObjClass :=
  if (findSlot key o.props).isSome then o.cls else o.cls.grow key

/-- Replace or add an own property. -/
def Obj.putOwn (o : Obj) (key : PropKey) (slot : Slot) : Obj :=
  { o with cls := o.clsWith key, props := putSlot key slot o.props }

/-! ## Cells -/

/-- The body of a cell: an object, or a string, symbol or BigInt that refers to nothing. -/
inductive Body where
  | leaf
  | obj (o : Obj)

/-- The heap of a runtime. -/
abbrev Heap := Memory.Store Body

/-- The references of a slot. -/
def Slot.refs : Slot → List Ref
  | data v _ => v.ref?.toList
  | accessor getter setter _ => getter.toList ++ setter.toList

/-- The references an object's class holds. -/
def ObjClass.refs : ObjClass → List Ref
  | function (.dart data) => data.ref?.toList
  | function (.resolving p _) => [p]
  | promise (.fulfilled v) _ => v.ref?.toList
  | promise (.rejected v) _ => v.ref?.toList
  | boxed v => v.ref?.toList
  | _ => []

/-- The first cells are kept by the context for as long as it lives. -/
def fixedCells : ℕ := 7

/-- The reference of a shape to a prototype, if it is counted. -/
def shapeRefs (proto : Option Ref) : List Ref := proto.toList.filter fun r => fixedCells ≤ r

/-- The references of a body: those of its shape, of its class and of its properties. -/
def Body.refs : Body → List Ref
  | leaf => []
  | obj o => shapeRefs o.proto ++ (o.cls.refs ++ o.props.flatMap fun p => p.2.refs)

/-- An object refers to its prototype, by its class, and by its properties. -/
theorem mem_refs_obj {o : Obj} {x : Ref} : x ∈ (Body.obj o).refs ↔
    x ∈ shapeRefs o.proto ∨ x ∈ o.cls.refs ∨ ∃ p ∈ o.props, x ∈ p.2.refs := by
  rw [Body.refs, List.mem_append, List.mem_append, List.mem_flatMap]

/-- The first cells are not counted. -/
theorem shapeRefs_fixed {p : Ref} (h : p < fixedCells) : shapeRefs (some p) = [] := by
  simp [shapeRefs, h]

/-- A shape refers to the prototype only. -/
theorem mem_shapeRefs {q : Option Ref} {x : Ref} (h : x ∈ shapeRefs q) : q = some x := by
  unfold shapeRefs at h
  cases q with
  | none => cases h
  | some p => rw [List.mem_singleton.1 (List.mem_filter.1 h).1]

namespace Heap

/-- The object of a cell. -/
def obj? (h : Heap) (r : Ref) : Option Obj :=
  match Memory.body? h r with
  | some (.obj o) => some o
  | _ => none

/-- Replace an object. -/
def setObj (h : Heap) (r : Ref) (o : Obj) : Heap := Memory.update h r fun _ => .obj o

/-- `JS_DupValue`. -/
def dupValue (h : Heap) (v : JSValue) : Heap :=
  match v.ref? with
  | some r => Memory.bump h r 1
  | none => h

/-- `JS_FreeValue`. -/
def freeValue (h : Heap) (v : JSValue) : Heap := Memory.release Body.refs v.ref?.toList h

/-- `JS_DupValue` changes no object. -/
@[simp] theorem obj?_dupValue (h : Heap) (v : JSValue) (r : Ref) :
    (h.dupValue v).obj? r = h.obj? r := by
  unfold obj? dupValue
  cases v.ref? <;> simp

/-- `JS_FreeValue` changes no object. -/
@[simp] theorem obj?_freeValue (h : Heap) (v : JSValue) (r : Ref) :
    (h.freeValue v).obj? r = h.obj? r := by
  unfold obj? freeValue
  simp

/-- The written object is read back, and the others as before. -/
theorem obj?_setObj {h : Heap} {r : Ref} {o : Obj} (ho : h.obj? r = some o) (o' : Obj) (x : Ref) :
    (h.setObj r o').obj? x = if x = r then some o' else h.obj? x := by
  unfold obj? at ho
  unfold obj? setObj
  rw [Memory.body?_update]
  split_ifs with h₁ h₂ h₂
  · subst h₁
    cases hb : Memory.body? h r with
    | none => rw [hb] at ho; cases ho
    | some b => rfl
  · exact absurd h₁.symm h₂
  · exact absurd h₂.symm h₁
  · rfl

/-- A new object is read back, and the others as before. -/
theorem obj?_alloc (h : Heap) (b : Body) (x : Ref) :
    obj? (Memory.alloc h b) x
      = if x = h.length then (match b with | .obj o => some o | .leaf => none) else h.obj? x := by
  unfold obj?
  rw [Memory.body?_alloc]
  split_ifs
  · cases b <;> rfl
  · rfl

/-- An object is a cell of the heap. -/
theorem lt_length_of_obj? {h : Heap} {r : Ref} {o : Obj} (ho : h.obj? r = some o) :
    r < h.length := by
  unfold obj? at ho
  cases hb : Memory.body? h r with
  | none => rw [hb] at ho; cases ho
  | some b => exact Memory.lt_length_of_body? hb

/-- `JS_DupValue` makes no cell. -/
@[simp] theorem length_dupValue (h : Heap) (v : JSValue) : (h.dupValue v).length = h.length := by
  unfold dupValue
  cases v.ref? <;> simp

/-- `JS_FreeValue` deletes no cell. -/
@[simp] theorem length_freeValue (h : Heap) (v : JSValue) : (h.freeValue v).length = h.length := by
  simp [freeValue]

/-- A write makes no cell. -/
@[simp] theorem length_setObj (h : Heap) (r : Ref) (o : Obj) :
    (h.setObj r o).length = h.length := by
  simp [setObj]

end Heap

/-! ## Slots -/

/-- A key that is new goes to the end. -/
theorem putSlot_of_findSlot_eq_none {key : PropKey} {l : List (PropKey × Slot)}
    (h : findSlot key l = none) (slot : Slot) : putSlot key slot l = l ++ [(key, slot)] := by
  induction l with
  | nil => rfl
  | cons p l ih =>
    obtain ⟨k', s⟩ := p
    rw [findSlot] at h
    split_ifs at h with hk
    rw [putSlot, if_neg hk, ih h, List.cons_append]

/-- What is found is one of the properties. -/
theorem mem_of_findSlot {key : PropKey} {slot : Slot} {l : List (PropKey × Slot)}
    (h : findSlot key l = some slot) : (key, slot) ∈ l := by
  induction l with
  | nil => cases h
  | cons p l ih =>
    obtain ⟨k, s⟩ := p
    rw [findSlot] at h
    split_ifs at h with hk
    · cases h
      rw [hk]
      exact List.mem_cons_self
    · exact List.mem_cons_of_mem _ (ih h)

/-- An own property is in the list, or is the `length` of an array. -/
theorem getOwn_mem {o : Obj} {key : PropKey} {slot : Slot} (h : o.getOwn key = some slot) :
    (∃ len, o.cls = .array len ∧ key = .name lengthName ∧
      slot = .data (intValue len) ⟨true, false, false⟩) ∨ (key, slot) ∈ o.props := by
  unfold Obj.getOwn at h
  cases hcls : o.cls with
  | array len =>
    rw [hcls] at h
    dsimp only at h
    split_ifs at h with hk
    · cases h
      exact .inl ⟨len, rfl, hk, rfl⟩
    · exact .inr (mem_of_findSlot h)
  | _ =>
    rw [hcls] at h
    exact .inr (mem_of_findSlot h)

/-- The references of a slot are references of the object. -/
theorem mem_refs_of_mem_props {o : Obj} {p : PropKey × Slot} (hp : p ∈ o.props) {x : Ref}
    (hx : x ∈ p.2.refs) : x ∈ (Body.obj o).refs :=
  mem_refs_obj.2 (.inr (.inr ⟨p, hp, hx⟩))

/-- An integer refers to nothing. -/
theorem refs_intValue (i : ℤ) : (intValue i).ref?.toList = [] := by
  unfold intValue
  split_ifs <;> rfl

/-! ## References of an object -/

/-- The references of an object, part by part. -/
theorem count_refs_obj (o : Obj) (x : Ref) : (Body.obj o).refs.count x
    = (shapeRefs o.proto).count x + o.cls.refs.count x
      + (o.props.flatMap fun p => p.2.refs).count x := by
  rw [Body.refs, List.count_append, List.count_append, Nat.add_assoc]

/-- A longer array refers to the same. -/
theorem ObjClass.refs_grow (cls : ObjClass) (key : PropKey) : (cls.grow key).refs = cls.refs := by
  cases cls with
  | array len =>
    unfold ObjClass.grow
    cases key.arrayIndex <;> rfl
  | _ => rfl

/-- An assignment to a property that is there leaves the length alone. -/
theorem Obj.clsWith_of_some {o : Obj} {key : PropKey} {slot : Slot}
    (h : findSlot key o.props = some slot) : o.clsWith key = o.cls := by
  unfold Obj.clsWith
  rw [h]
  rfl

/-- A new property may make an array longer. -/
theorem Obj.clsWith_of_none {o : Obj} {key : PropKey} (h : findSlot key o.props = none) :
    o.clsWith key = o.cls.grow key := by
  unfold Obj.clsWith
  rw [h]
  rfl

/-- A write to a property keeps the class, or makes an array grow. -/
theorem Obj.clsWith_cases (o : Obj) (key : PropKey) :
    o.clsWith key = o.cls ∨ o.clsWith key = o.cls.grow key := by
  unfold Obj.clsWith
  split_ifs
  · exact .inl rfl
  · exact .inr rfl

/-- A property that is stored adds no reference by the class. -/
theorem Obj.refs_clsWith (o : Obj) (key : PropKey) : (o.clsWith key).refs = o.cls.refs := by
  rcases o.clsWith_cases key with h | h
  · rw [h]
  · rw [h, ObjClass.refs_grow]

/-- A slot replaced, in the references of the list. -/
theorem count_putSlot_of_some {key : PropKey} {old : Slot} {l : List (PropKey × Slot)}
    (h : findSlot key l = some old) (slot : Slot) (x : Ref) :
    ((putSlot key slot l).flatMap fun p => p.2.refs).count x + old.refs.count x
      = (l.flatMap fun p => p.2.refs).count x + slot.refs.count x := by
  induction l with
  | nil => cases h
  | cons p l ih =>
    obtain ⟨k, s⟩ := p
    rw [findSlot] at h
    rw [putSlot]
    split_ifs at h ⊢ with hk
    · cases h
      simp only [List.flatMap_cons, List.count_append]
      omega
    · have hl := ih h
      simp only [List.flatMap_cons, List.count_append]
      omega

/-- A slot added. -/
theorem count_putSlot_of_none {key : PropKey} {l : List (PropKey × Slot)}
    (h : findSlot key l = none) (slot : Slot) (x : Ref) :
    ((putSlot key slot l).flatMap fun p => p.2.refs).count x
      = (l.flatMap fun p => p.2.refs).count x + slot.refs.count x := by
  rw [putSlot_of_findSlot_eq_none h]
  simp

/-- A key without a property is in no slot. -/
theorem findSlot_of_getOwn_none {o : Obj} {key : PropKey} (h : o.getOwn key = none) :
    findSlot key o.props = none := by
  unfold Obj.getOwn at h
  split at h
  · split_ifs at h
    exact h
  · exact h

/-- Only the `length` of an array is not among its properties. -/
theorem getOwn_eq_findSlot {o : Obj} {key : PropKey}
    (h : ¬ (o.cls.isArray = true ∧ key = .name lengthName)) :
    o.getOwn key = findSlot key o.props := by
  unfold Obj.getOwn
  cases hcls : o.cls with
  | array len =>
    dsimp only
    rw [if_neg fun hk => h ⟨by rw [hcls]; rfl, hk⟩]
  | _ => rfl

end QuickjsDart
