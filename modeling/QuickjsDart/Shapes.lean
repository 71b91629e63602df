import QuickjsDart.Value
import QuickjsDart.Memory.HashChain

/-!
# Shapes

The properties of an object as QuickJS lays them out. A `JSShape` has the names and flags, in the
order in which they were added, with a hash table over them; the object itself has an array with the
values. Objects that got the same properties in the same order share a shape, which is found in a
hash table of the runtime, and a shape that is shared is copied before it is changed.

`none` is what must not happen: an assertion fails, a loop does not end, or memory is read that was
freed or is not in the array. Allocation does not fail.
-/

namespace QuickjsDart

namespace Shapes

/-! ## Data -/

/-- `JS_PROP_CONFIGURABLE` is the lowest bit of the flags. -/
def configurable (flags : ℕ) : Bool := flags.testBit 0

/-- `JS_PROP_WRITABLE | JS_PROP_LENGTH`, the flags of the `length` of an array. -/
def lengthFlags : ℕ := 10

/-- `JS_ATOM_length`. -/
def atomLength : ℕ := 48

/-- `__JS_AtomIsTaggedInt`. -/
def isTaggedInt (atom : ℕ) : Bool := atom.testBit 31

/-- `JSShapeProperty`. The atom 0 is a free entry. -/
structure ShapeProperty where
  hashNext : ℕ
  flags : ℕ
  atom : ℕ
  deriving DecidableEq

/-- `JSShape`. `propHash` is the table before `prop_hash_end`, and `prop` has `prop_count`
entries. -/
structure Shape where
  propHash : List ℕ
  prop : List ShapeProperty
  propSize : ℕ
  deletedPropCount : ℕ
  isHashed : Bool
  hasSmallArrayIndex : Bool
  hash : UInt32
  refCount : ℕ
  proto : Option Ref
  deriving DecidableEq

variable {V : Type}

/-- The part of a `JSObject` that has its properties. The array has `prop_size` entries, some of
which were not written yet. -/
structure PropObj (V : Type) where
  shape : ℕ
  prop : List (Option V)

/-- The shapes and objects of a runtime, each under the number of its allocation; `none` was freed.
`shapeHash` has the lists of `rt->shape_hash`. A context has its `array_shape` and its
`class_proto[JS_CLASS_ARRAY]`. -/
structure Runtime (V : Type) where
  shapes : List (Option Shape)
  shapeHash : List (List ℕ)
  shapeHashBits : ℕ
  shapeHashCount : ℕ
  objs : List (Option (PropObj V))
  contexts : List (Option (ℕ × Option Ref))

/-- The shape of an id, unless it was freed. -/
def Runtime.shape? (rt : Runtime V) (id : ℕ) : Option Shape := rt.shapes[id]?.join

/-- The object of an id, unless it was freed. -/
def Runtime.obj? (rt : Runtime V) (p : ℕ) : Option (PropObj V) := rt.objs[p]?.join

/-- A shape is written. -/
def Runtime.setShape (rt : Runtime V) (id : ℕ) (sh : Shape) : Runtime V :=
  { rt with shapes := rt.shapes.set id (some sh) }

/-- An object is written. -/
def Runtime.setObj (rt : Runtime V) (p : ℕ) (o : PropObj V) : Runtime V :=
  { rt with objs := rt.objs.set p (some o) }

/-! ## One shape -/

/-- A new entry, at the head of its chain. `hash_next` has 26 bits. -/
def insertHashed (atom flags : ℕ) (t : List ShapeProperty × List ℕ) :
    List ShapeProperty × List ℕ :=
  let h := atom &&& (t.2.length - 1)
  (t.1 ++ [⟨t.2.getD h 0 % 2 ^ 26, flags, atom⟩], t.2.set h (t.1.length + 1))

/-- The loop of `resize_properties` over the entries, with a new table. -/
def rehash (size : ℕ) (prop : List ShapeProperty) : List ShapeProperty × List ℕ :=
  prop.foldl (fun t pr => if pr.atom = 0 then (t.1 ++ [pr], t.2)
    else insertHashed pr.atom pr.flags t) ([], List.replicate size 0)

/-- `while (new_hash_size < new_size) new_hash_size = 2 * new_hash_size`. -/
def growHashSize : ℕ → ℕ → ℕ → ℕ
  | 0, size, _ => size
  | fuel + 1, size, newSize => if size < newSize then growHashSize fuel (2 * size) newSize else size

/-- `while ((new_hash_size / 2) >= new_size) new_hash_size = new_hash_size / 2`. -/
def shrinkHashSize : ℕ → ℕ → ℕ → ℕ
  | 0, size, _ => size
  | fuel + 1, size, newSize =>
    if newSize ≤ size / 2 then shrinkHashSize fuel (size / 2) newSize else size

/-- The shape part of `resize_properties`. -/
def Shape.resize (sh : Shape) (newSize : ℕ) : Shape :=
  let newHashSize := growHashSize newSize sh.propHash.length newSize
  if newHashSize ≠ sh.propHash.length then
    let t := rehash newHashSize sh.prop
    { sh with prop := t.1, propHash := t.2, propSize := newSize }
  else { sh with propSize := newSize }

/-- The end of `add_shape_property`. -/
def Shape.append (sh : Shape) (atom flags : ℕ) : Shape :=
  let t := insertHashed atom flags (sh.prop, sh.propHash)
  { sh with prop := t.1, propHash := t.2,
            hasSmallArrayIndex := sh.hasSmallArrayIndex || isTaggedInt atom }

/-- The search of `find_own_property` and `delete_property`: the entry, and the one before it. -/
def Shape.search (sh : Shape) (atom : ℕ) : Option (Option (Option ℕ × ℕ)) := do
  let h ← sh.propHash[atom &&& (sh.propHash.length - 1)]?
  Memory.locate (fun i => (sh.prop[i]?).map fun pr => (pr.atom = atom, pr.hashNext))
    sh.prop.length none h

/-- The entry `i`, which is behind `last`, is taken out of its chain and freed. -/
def Shape.remove (sh : Shape) (last : Option ℕ) (i : ℕ) (pr : ShapeProperty) : Shape :=
  let h := pr.atom &&& (sh.propHash.length - 1)
  let (prop, propHash) := match last with
    | some a => (sh.prop.modify a fun q => { q with hashNext := pr.hashNext }, sh.propHash)
    | none => (sh.prop, sh.propHash.set h pr.hashNext)
  { sh with prop := prop.set i ⟨pr.hashNext, 0, 0⟩, propHash,
            deletedPropCount := sh.deletedPropCount + 1 }

/-- The loop of `compact_properties` over the entries: what is kept, the table, and the values. -/
def compactLoop : List ShapeProperty → ℕ → List ShapeProperty × List ℕ → List (Option V) →
    Option ((List ShapeProperty × List ℕ) × List (Option V))
  | [], _, t, vals => some (t, vals)
  | pr :: rest, i, t, vals =>
    if pr.atom = 0 then compactLoop rest (i + 1) t vals
    else match vals[i]? with
      | some v => compactLoop rest (i + 1) (insertHashed pr.atom pr.flags t) (vals.set t.1.length v)
      | none => none

/-! ## The table of shapes -/

/-- `shape_hash`. -/
def shapeHash (h val : UInt32) : UInt32 := (h + val) * 0x9e370001

/-- `get_shape_hash`. -/
def getShapeHash (h : UInt32) (bits : ℕ) : ℕ := h.toNat >>> (32 - bits)

/-- `js_shape_hash_link`. -/
def Runtime.link (rt : Runtime V) (id : ℕ) (sh : Shape) : Runtime V :=
  { rt with
    shapeHash := rt.shapeHash.modify (getShapeHash sh.hash rt.shapeHashBits) (id :: ·)
    shapeHashCount := rt.shapeHashCount + 1 }

/-- `js_shape_hash_unlink`: the loop ends where the shape is in its list. -/
def Runtime.unlink (rt : Runtime V) (id : ℕ) (sh : Shape) : Option (Runtime V) := do
  let h := getShapeHash sh.hash rt.shapeHashBits
  let bucket ← rt.shapeHash[h]?
  if id ∈ bucket then
    some { rt with shapeHash := rt.shapeHash.set h (bucket.erase id)
                   shapeHashCount := rt.shapeHashCount - 1 }
  else none

/-- `resize_shape_hash`. -/
def Runtime.resizeShapeHash (rt : Runtime V) (bits : ℕ) : Option (Runtime V) := do
  let table ← rt.shapeHash.flatten.foldlM (fun table id => do
    let sh ← rt.shape? id
    pure (table.modify (getShapeHash sh.hash bits) (id :: ·))) (List.replicate (2 ^ bits) [])
  some { rt with shapeHash := table, shapeHashBits := bits }

/-- The table grows when it is half full. -/
def Runtime.makeRoom (rt : Runtime V) : Option (Runtime V) :=
  if 2 * (rt.shapeHashCount + 1) > rt.shapeHash.length
  then rt.resizeShapeHash (rt.shapeHashBits + 1) else some rt

/-- `js_new_shape2`, with the hash of the prototype's address. -/
def Runtime.newShape (rt : Runtime V) (initialHash : UInt32) (proto : Option Ref)
    (hashSize propSize : ℕ) : Option (ℕ × Runtime V) := do
  let rt ← rt.makeRoom
  let sh : Shape := ⟨List.replicate hashSize 0, [], propSize, 0, true, false, initialHash, 1, proto⟩
  some (rt.shapes.length, { rt with shapes := rt.shapes ++ [some sh] }.link rt.shapes.length sh)

/-- `js_dup_shape`. -/
def Runtime.dupShape (rt : Runtime V) (id : ℕ) : Option (Runtime V) := do
  let sh ← rt.shape? id
  some (rt.setShape id { sh with refCount := sh.refCount + 1 })

/-- `js_free_shape`. -/
def Runtime.freeShape (rt : Runtime V) (id : ℕ) : Option (Runtime V) := do
  let sh ← rt.shape? id
  let sh := { sh with refCount := sh.refCount - 1 }
  if sh.refCount = 0 then
    let rt ← if sh.isHashed then rt.unlink id sh else some rt
    some { rt with shapes := rt.shapes.set id none }
  else some (rt.setShape id sh)

/-- A shape is allocated anew, and its old memory freed. -/
def Runtime.moveShape (rt : Runtime V) (id : ℕ) (sh : Shape) : ℕ × Runtime V :=
  (rt.shapes.length, { rt with shapes := rt.shapes.set id none ++ [some sh] })

/-- `find_hashed_shape_proto`. -/
def Runtime.findHashedShapeProto (rt : Runtime V) (initialHash : UInt32) (proto : Option Ref) :
    Option (Option ℕ) := do
  let bucket ← rt.shapeHash[getShapeHash initialHash rt.shapeHashBits]?
  bucket.findM? fun id => do
    let sh ← rt.shape? id
    some (sh.hash = initialHash ∧ sh.proto = proto ∧ sh.prop.length = 0)

/-- The comparison in `find_hashed_shape_prop`. -/
def Shape.extends (sh₁ sh : Shape) (hash : UInt32) (atom flags : ℕ) : Bool :=
  sh₁.hash = hash ∧ sh₁.proto = sh.proto ∧
    sh₁.prop.map (fun pr => (pr.atom, pr.flags)) =
      sh.prop.map (fun pr => (pr.atom, pr.flags)) ++ [(atom, flags)]

/-- The hash of a shape with one more property. -/
def Shape.nextHash (sh : Shape) (atom flags : ℕ) : UInt32 :=
  shapeHash (shapeHash sh.hash (UInt32.ofNat atom)) (UInt32.ofNat flags)

/-- `find_hashed_shape_prop`. -/
def Runtime.findHashedShapeProp (rt : Runtime V) (sh : Shape) (atom flags : ℕ) :
    Option (Option ℕ) := do
  let h := sh.nextHash atom flags
  let bucket ← rt.shapeHash[getShapeHash h rt.shapeHashBits]?
  bucket.findM? fun id => do
    let sh₁ ← rt.shape? id
    some (sh₁.extends sh h atom flags)

/-! ## Objects -/

/-- `js_realloc` of the array of values. -/
def realloc (vals : List (Option V)) (n : ℕ) : List (Option V) :=
  vals.take n ++ List.replicate (n - vals.length) none

/-- `js_clone_shape`. -/
def Runtime.cloneShape (rt : Runtime V) (sh : Shape) : ℕ × Runtime V :=
  (rt.shapes.length,
    { rt with shapes := rt.shapes ++ [some { sh with refCount := 1, isHashed := false }] })

/-- `js_shape_prepare_update`: the shape of the object may be changed then. -/
def Runtime.prepareUpdate (rt : Runtime V) (p : ℕ) : Option (Runtime V) := do
  let o ← rt.obj? p
  let sh ← rt.shape? o.shape
  if sh.isHashed then
    if sh.refCount ≠ 1 then
      let (id, rt) := rt.cloneShape sh
      let rt ← rt.freeShape o.shape
      some (rt.setObj p { o with shape := id })
    else
      let rt ← rt.unlink o.shape sh
      some (rt.setShape o.shape { sh with isHashed := false })
  else some rt

/-- The part of `add_shape_property` after the shape is out of the table: room is made, and the
property is the last. -/
def Runtime.growShape (rt : Runtime V) (p : ℕ) (o : PropObj V) (sh : Shape) (hash : UInt32)
    (atom flags : ℕ) : ℕ × Shape × Runtime V :=
  if sh.propSize ≤ sh.prop.length then
    let newSize := max (sh.prop.length + 1) (sh.propSize * 3 / 2)
    let sh' := { sh.resize newSize with hash }.append atom flags
    let (id, rt) := rt.moveShape o.shape sh'
    (id, sh', rt.setObj p ⟨id, realloc o.prop newSize⟩)
  else
    let sh' := { sh with hash }.append atom flags
    (o.shape, sh', rt.setShape o.shape sh')

/-- `add_shape_property` for an object, whose shape no other has. -/
def Runtime.addShapeProperty (rt : Runtime V) (p atom flags : ℕ) : Option (Runtime V) := do
  let o ← rt.obj? p
  let sh ← rt.shape? o.shape
  if sh.isHashed then
    let rt ← rt.unlink o.shape sh
    let (id, sh', rt) := rt.growShape p o sh (sh.nextHash atom flags) atom flags
    some (rt.link id sh')
  else
    let (_, _, rt) := rt.growShape p o sh sh.hash atom flags
    some rt

/-- The branch of `add_property` where a shape with the property was found. -/
def Runtime.joinShape (rt : Runtime V) (p : ℕ) (o : PropObj V) (sh : Shape) (id : ℕ) (v : V) :
    Option (Runtime V) := do
  let sh₁ ← rt.shape? id
  let prop := if sh₁.propSize ≠ sh.propSize then realloc o.prop sh₁.propSize else o.prop
  let rt ← rt.dupShape id
  let rt ← (rt.setObj p ⟨id, prop⟩).freeShape o.shape
  if sh₁.prop.length - 1 < prop.length then
    some (rt.setObj p ⟨id, prop.set (sh₁.prop.length - 1) (some v)⟩)
  else none

/-- A shape that is shared is cloned, and the clone is hashed. -/
def Runtime.ownShape (rt : Runtime V) (p : ℕ) (o : PropObj V) (sh : Shape) : Option (Runtime V) :=
  if sh.isHashed ∧ sh.refCount ≠ 1 then do
    let (id, rt) := rt.cloneShape sh
    let sh' := { sh with refCount := 1, isHashed := true }
    let rt ← ((rt.setShape id sh').link id sh').freeShape o.shape
    some (rt.setObj p { o with shape := id })
  else some rt

/-- The rest of `add_property`, where none was found. -/
def Runtime.extendShape (rt : Runtime V) (p : ℕ) (o : PropObj V) (sh : Shape) (atom flags : ℕ)
    (v : V) : Option (Runtime V) := do
  let rt ← rt.ownShape p o sh
  let o ← rt.obj? p
  let sh ← rt.shape? o.shape
  if sh.refCount ≠ 1 then none
  else
    let rt ← rt.addShapeProperty p atom flags
    let o ← rt.obj? p
    let sh ← rt.shape? o.shape
    if sh.prop.length - 1 < o.prop.length then
      some (rt.setObj p { o with prop := o.prop.set (sh.prop.length - 1) (some v) })
    else none

/-- `add_property`, with the value that the caller writes into the new slot. -/
def Runtime.addProperty (rt : Runtime V) (p atom flags : ℕ) (v : V) : Option (Runtime V) := do
  let o ← rt.obj? p
  let sh ← rt.shape? o.shape
  if sh.isHashed then
    match ← rt.findHashedShapeProp sh atom flags with
    | some id => rt.joinShape p o sh id v
    | none => rt.extendShape p o sh atom flags v
  else rt.extendShape p o sh atom flags v

/-- `compact_properties`. -/
def Runtime.compactProperties (rt : Runtime V) (p : ℕ) : Option (Runtime V) := do
  let o ← rt.obj? p
  let sh ← rt.shape? o.shape
  let newSize := max 2 (sh.prop.length - sh.deletedPropCount)
  if sh.isHashed ∨ sh.propSize < newSize then none
  else
    let hashSize := shrinkHashSize sh.propHash.length sh.propHash.length newSize
    let (t, vals) ← compactLoop sh.prop 0 ([], List.replicate hashSize 0) o.prop
    if t.1.length ≠ sh.prop.length - sh.deletedPropCount then none
    else
      let sh' := { sh with prop := t.1, propHash := t.2, propSize := newSize,
                           deletedPropCount := 0 }
      let (id, rt) := rt.moveShape o.shape sh'
      some (rt.setObj p ⟨id, realloc vals newSize⟩)

/-- `find_own_property`: the flags and the value. -/
def Runtime.findOwnProperty (rt : Runtime V) (p atom : ℕ) : Option (Option (ℕ × V)) := do
  let o ← rt.obj? p
  let sh ← rt.shape? o.shape
  match ← sh.search atom with
  | some (_, i) =>
    let pr ← sh.prop[i]?
    let v ← (o.prop[i]?).join
    some (some (pr.flags, v))
  | none => some none

/-- `delete_property`, for the properties of the shape. -/
def Runtime.deleteProperty (rt : Runtime V) (undefined : V) (p atom : ℕ) :
    Option (Bool × Runtime V) := do
  let o ← rt.obj? p
  let sh ← rt.shape? o.shape
  match ← sh.search atom with
  | some (last, i) =>
    let pr ← sh.prop[i]?
    if !configurable pr.flags then some (false, rt)
    else
      let rt ← rt.prepareUpdate p
      let o ← rt.obj? p
      let sh ← rt.shape? o.shape
      let sh' := sh.remove last i pr
      let rt := (rt.setShape o.shape sh').setObj p { o with prop := o.prop.set i (some undefined) }
      if 8 ≤ sh'.deletedPropCount ∧ sh'.prop.length / 2 ≤ sh'.deletedPropCount then do
        let rt ← rt.compactProperties p
        some (true, rt)
      else some (true, rt)
  | none => some (true, rt)

/-- `js_update_property_flags`. -/
def Runtime.updatePropertyFlags (rt : Runtime V) (p atom flags : ℕ) : Option (Runtime V) := do
  let o ← rt.obj? p
  let sh ← rt.shape? o.shape
  match ← sh.search atom with
  | some (_, i) =>
    let pr ← sh.prop[i]?
    if flags ≠ pr.flags then do
      let rt ← rt.prepareUpdate p
      let o ← rt.obj? p
      let sh ← rt.shape? o.shape
      some (rt.setShape o.shape { sh with prop := sh.prop.modify i fun pr => { pr with flags } })
    else some rt
  | none => some rt

/-- A value is written to the slot that `find_own_property` gives. -/
def Runtime.setValue (rt : Runtime V) (p atom : ℕ) (v : V) : Option (Runtime V) := do
  let o ← rt.obj? p
  let sh ← rt.shape? o.shape
  match ← sh.search atom with
  | some (_, i) =>
    if i < o.prop.length then some (rt.setObj p { o with prop := o.prop.set i (some v) }) else none
  | none => some rt

/-- The end of `JS_SetPrototypeInternal`. -/
def Runtime.setPrototype (rt : Runtime V) (p : ℕ) (proto : Option Ref) : Option (Runtime V) := do
  let rt ← rt.prepareUpdate p
  let o ← rt.obj? p
  let sh ← rt.shape? o.shape
  some (rt.setShape o.shape { sh with proto })

/-- `JS_NewObjectFromShape`, with a reference to the shape. -/
def Runtime.newFromShape (rt : Runtime V) (id : ℕ) : Option (ℕ × Runtime V) := do
  let sh ← rt.shape? id
  some (rt.objs.length, { rt with objs := rt.objs ++ [some ⟨id, List.replicate sh.propSize none⟩] })

/-- `JS_NewObjectProtoClass`. -/
def Runtime.newObject (rt : Runtime V) (initialHash : UInt32) (proto : Option Ref) :
    Option (ℕ × Runtime V) := do
  match ← rt.findHashedShapeProto initialHash proto with
  | some id =>
    let rt ← rt.dupShape id
    rt.newFromShape id
  | none =>
    let (id, rt) ← rt.newShape initialHash proto 4 2
    rt.newFromShape id

/-- A new context makes its `array_shape`. -/
def Runtime.newContext (rt : Runtime V) (initialHash : UInt32) (proto : Option Ref) :
    Option (Runtime V) := do
  let (id, rt) ← rt.newShape initialHash proto 4 1
  let sh ← rt.shape? id
  let rt ← rt.unlink id sh
  let sh' := { sh with hash := sh.nextHash atomLength lengthFlags }.append atomLength lengthFlags
  some { (rt.setShape id sh').link id sh' with contexts := rt.contexts ++ [some (id, proto)] }

/-- The part of `JS_FreeContext` that frees `ctx->array_shape`. -/
def Runtime.freeContext (rt : Runtime V) (c : ℕ) : Option (Runtime V) := do
  let (id, _) ← rt.contexts[c]?.join
  let rt ← rt.freeShape id
  some { rt with contexts := rt.contexts.set c none }

/-- `JS_NewArray` in a context: an object of `ctx->array_shape`, with its `length`. -/
def Runtime.newArray (rt : Runtime V) (c : ℕ) (length : V) : Option (ℕ × Runtime V) := do
  let (id, _) ← rt.contexts[c]?.join
  let rt ← rt.dupShape id
  let (p, rt) ← rt.newFromShape id
  let o ← rt.obj? p
  if 0 < o.prop.length then some (p, rt.setObj p { o with prop := o.prop.set 0 (some length) })
  else none

/-- The part of `free_object` that frees the properties. -/
def Runtime.freeObject (rt : Runtime V) (p : ℕ) : Option (Runtime V) := do
  let o ← rt.obj? p
  let rt ← rt.freeShape o.shape
  some { rt with objs := rt.objs.set p none }

/-- `init_shape_hash`. -/
def Runtime.start : Runtime V := ⟨[], List.replicate 16 [], 4, 0, [], []⟩

end Shapes

end QuickjsDart
