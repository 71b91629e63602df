import QuickjsDart.Engine

/-!
# What a conversion builds

A `Tree` is a JavaScript value up to the place of its objects: numbers, strings, hooks by the
handler they run, and objects with their prototype and their properties in order. `encode` says
which tree the conversion of a Dart value builds, and that there is none where it throws.

`Denotes vm lo v t` says that in `vm` the value `v` is the tree `t`, with all its objects at `lo` or
above. What is below an object is above its cell, so changing the object leaves its members alone
(`Denotes.keeps`).
-/

namespace QuickjsDart

open Codec

/-- The parts of an object: an array's length, a prototype other than the class's own, and the
properties in order. -/
structure Node (τ : Type) where
  len : Option ℕ
  proto : Option τ
  props : List (PropKey × Flags × τ)

/-- A JavaScript value up to the place of its objects. -/
inductive Tree where
  | int (n : Int32)
  | float64 (d : Binary64)
  | bool (b : Bool)
  | str (s : Utf16)
  | fn (h : Handler)
  | node (n : Node Tree)

/-! ## Building objects -/

/-- The tree of a key in a property list. -/
def findTree (key : PropKey) : List (PropKey × Flags × Tree) → Option (Flags × Tree)
  | [] => none
  | (k, p) :: rest => if k = key then some p else findTree key rest

/-- Replace the tree of a key, or add it at the end. -/
def putTree (key : PropKey) (p : Flags × Tree) :
    List (PropKey × Flags × Tree) → List (PropKey × Flags × Tree)
  | [] => [(key, p)]
  | (k, q) :: rest => if k = key then (k, p) :: rest else (k, q) :: putTree key p rest

/-- An array's length after a property of that key was added. -/
def growLen (key : PropKey) (len : Option ℕ) : Option ℕ :=
  len.map fun n =>
    match key.arrayIndex with
    | some i => max n (i + 1)
    | none => n

/-- A new array. -/
def Node.array : Node Tree := ⟨some 0, none, []⟩

/-- A new object. -/
def Node.object : Node Tree := ⟨none, none, []⟩

/-- Put an own property. Only one that is new makes an array grow. -/
def Node.put (n : Node Tree) (key : PropKey) (p : Flags × Tree) : Node Tree :=
  ⟨if (findTree key n.props).isSome then n.len else growLen key n.len, n.proto,
    putTree key p n.props⟩

/-- The setter of `__proto__`, which takes objects only. -/
def Node.setProto (n : Node Tree) : Tree → Node Tree
  | .node m => { n with proto := some (.node m) }
  | _ => n

/-- An assignment. `__proto__` gives the prototype, unless the object has it as a property. -/
def Node.set (n : Node Tree) (key : PropKey) (t : Tree) : Node Tree :=
  match findTree key n.props with
  | some (fl, _) => n.put key (fl, t)
  | none => if key = .name protoName then n.setProto t else n.put key (.cwe, t)

mutual

/-- The members of a list, from an index on. -/
def encodeElements (n : Node Tree) (i : ℕ) : List DartVal → Option (Node Tree)
  | [] => some n
  | v :: rest => do
    let n ← encodeMember n (.int (Int64.ofNat i)) v
    encodeElements n (i + 1) rest

/-- The members of a map. -/
def encodeEntries (n : Node Tree) : List (Option Utf16 × DartVal) → Option (Node Tree)
  | [] => some n
  | (key, v) :: rest => do
    let n ← encodeMember n (key.elim .null .string) v
    encodeEntries n rest

/-- One member of a container. -/
def encodeMember (n : Node Tree) (name : PropName) : DartVal → Option (Node Tree)
  | .int k => some (n.set name.key (.int (Int32.ofInt k.toInt)))
  | .string s => some (n.set name.key (.str (ffiString s)))
  | .bool b => some (n.set name.key (.bool b))
  | .double _ => some n
  | .list elems => (encodeElements .array 0 elems).map fun m => n.set name.key (.node m)
  | .map entries => (encodeEntries .object entries).map fun m => n.set name.key (.node m)
  | .handler h => if name = .null then none else some (n.put name.key (.cw, .fn h))
  | _ => none

end

/-- The tree of a number. -/
def numberTree : JSValue → Tree
  | .int n => .int n
  | .float64 d => .float64 d
  | _ => .int 0

/-- The tree that `toJSVal` builds. -/
def encode : DartVal → Option Tree
  | .int n => some (numberTree (intValue n.toInt))
  | .double d => some (numberTree (jsNewFloat64 d))
  | .string s => some (.str (ffiString s))
  | .bool b => some (.bool b)
  | .list elems => (encodeElements .array 0 elems).map .node
  | .map entries => (encodeEntries .object entries).map .node
  | _ => none

/-! ## Trees in the heap -/

/-- The class of an object that a conversion builds. -/
def Node.cls (n : Node Tree) : ObjClass := n.len.elim .object .array

/-- The prototype of that class. -/
def Node.classProto (n : Node Tree) : Ref := n.len.elim objectPrototype fun _ => arrayPrototype

mutual

/-- The value is the tree, with its objects at `lo` or above. -/
inductive Denotes (vm : VM) : ℕ → JSValue → Tree → Prop where
  | int {lo n} : Denotes vm lo (.int n) (.int n)
  | float64 {lo d} : Denotes vm lo (.float64 d) (.float64 d)
  | bool {lo b} : Denotes vm lo (.bool b) (.bool b)
  | str {lo r s} : Denotes vm lo (.string r s) (.str s)
  | fn {lo r o id h} : lo ≤ r → vm.heap.obj? r = some o → o.cls = .function (.dart (intValue id)) →
      ⟨id, h, r⟩ ∈ vm.registrations → Denotes vm lo (.object r) (.fn h)
  | plain {lo r o n} : lo ≤ r → vm.heap.obj? r = some o → o.cls = n.cls → o.extensible = true →
      o.proto = some n.classProto → n.proto = none → DenotesProps vm (r + 1) o.props n.props →
      Denotes vm lo (.object r) (.node n)
  | derived {lo r o n q m} : lo ≤ r → vm.heap.obj? r = some o → o.cls = n.cls →
      o.extensible = true → o.proto = some q → n.proto = some (.node m) →
      Denotes vm (r + 1) (.object q) (.node m) → DenotesProps vm (r + 1) o.props n.props →
      Denotes vm lo (.object r) (.node n)

/-- The properties are writable values that are the trees, in order. -/
inductive DenotesProps (vm : VM) :
    ℕ → List (PropKey × Slot) → List (PropKey × Flags × Tree) → Prop where
  | nil {lo} : DenotesProps vm lo [] []
  | cons {lo key v fl t l m} : fl.writable = true → fl.configurable = true → Denotes vm lo v t →
      DenotesProps vm lo l m →
      DenotesProps vm lo ((key, .data v fl) :: l) ((key, fl, t) :: m)

end

/-- What a run leaves as it was: the cells that satisfy `p`, and what was registered. -/
structure Keeps (p : Ref → Prop) (vm vm' : VM) : Prop where
  obj : ∀ {x o}, p x → vm.heap.obj? x = some o → vm'.heap.obj? x = some o
  length : vm.heap.length ≤ vm'.heap.length
  registered : ∀ {g}, g ∈ vm.registrations → g ∈ vm'.registrations

/-- Nothing happens. -/
theorem Keeps.refl (p : Ref → Prop) (vm : VM) : Keeps p vm vm := ⟨fun _ h => h, le_rfl, fun h => h⟩

/-- What is kept twice is kept. -/
theorem Keeps.trans {p : Ref → Prop} {vm₁ vm₂ vm₃ : VM} (h₁ : Keeps p vm₁ vm₂)
    (h₂ : Keeps p vm₂ vm₃) : Keeps p vm₁ vm₃ :=
  ⟨fun hx ho => h₂.obj hx (h₁.obj hx ho), h₁.length.trans h₂.length,
    fun hg => h₂.registered (h₁.registered hg)⟩

/-- Fewer cells are kept. -/
theorem Keeps.mono {p q : Ref → Prop} {vm vm' : VM} (h : Keeps p vm vm') (hq : ∀ x, q x → p x) :
    Keeps q vm vm' :=
  ⟨fun hx ho => h.obj (hq _ hx) ho, h.length, h.registered⟩

mutual

/-- A tree stays where its cells are kept. -/
theorem Denotes.keeps {p : Ref → Prop} {vm vm' : VM} (hk : Keeps p vm vm') {lo : ℕ}
    (hp : ∀ x, lo ≤ x → p x) {v : JSValue} {t : Tree} :
    Denotes vm lo v t → Denotes vm' lo v t
  | .int => .int
  | .float64 => .float64
  | .bool => .bool
  | .str => .str
  | .fn hlo ho hc hg => .fn hlo (hk.obj (hp _ hlo) ho) hc (hk.registered hg)
  | .plain hlo ho hc he hq hn hl =>
    .plain hlo (hk.obj (hp _ hlo) ho) hc he hq hn
      (hl.keeps hk fun x hx => hp x (hlo.trans (Nat.le_of_succ_le hx)))
  | .derived hlo ho hc he hq hn hd hl =>
    .derived hlo (hk.obj (hp _ hlo) ho) hc he hq hn
      (hd.keeps hk fun x hx => hp x (hlo.trans (Nat.le_of_succ_le hx)))
      (hl.keeps hk fun x hx => hp x (hlo.trans (Nat.le_of_succ_le hx)))

/-- Properties denote the same where their cells are kept. -/
theorem DenotesProps.keeps {p : Ref → Prop} {vm vm' : VM} (hk : Keeps p vm vm') {lo : ℕ}
    (hp : ∀ x, lo ≤ x → p x) {l : List (PropKey × Slot)} {m : List (PropKey × Flags × Tree)} :
    DenotesProps vm lo l m → DenotesProps vm' lo l m
  | .nil => .nil
  | .cons hw hc hv hl => .cons hw hc (hv.keeps hk hp) (hl.keeps hk hp)

end

/-- A smaller bound. -/
theorem Denotes.mono {vm : VM} {lo lo' : ℕ} {v : JSValue} {t : Tree} (h : Denotes vm lo v t)
    (hlo : lo' ≤ lo) : Denotes vm lo' v t := by
  cases h with
  | int => exact .int
  | float64 => exact .float64
  | bool => exact .bool
  | str => exact .str
  | fn h₁ ho hc hg => exact .fn (hlo.trans h₁) ho hc hg
  | plain h₁ ho hc he hq hn hl => exact .plain (hlo.trans h₁) ho hc he hq hn hl
  | derived h₁ ho hc he hq hn hd hl => exact .derived (hlo.trans h₁) ho hc he hq hn hd hl

/-! ## Property lists in step -/

/-- A key has no slot exactly where it has no tree. -/
theorem DenotesProps.find_eq_none {vm : VM} {lo : ℕ} {l : List (PropKey × Slot)}
    {m : List (PropKey × Flags × Tree)} (h : DenotesProps vm lo l m) {key : PropKey} :
    findTree key m = none ↔ findSlot key l = none := by
  induction l generalizing m with
  | nil => cases h; simp [findTree, findSlot]
  | cons p l ih =>
    cases h with
    | cons hw hc hv hl =>
      rw [findTree, findSlot]
      split_ifs
      · simp
      · exact ih hl

/-- The slot and the tree of a key belong together. -/
theorem DenotesProps.find {vm : VM} {lo : ℕ} {l : List (PropKey × Slot)}
    {m : List (PropKey × Flags × Tree)} (h : DenotesProps vm lo l m) {key : PropKey} {fl : Flags}
    {t : Tree} (hm : findTree key m = some (fl, t)) :
    ∃ v, findSlot key l = some (.data v fl) ∧ fl.writable = true ∧ fl.configurable = true ∧
      Denotes vm lo v t := by
  induction l generalizing m with
  | nil => cases h; simp [findTree] at hm
  | cons p l ih =>
    cases h with
    | @cons _ k v _ _ _ _ hw hc hv hl =>
      rw [findTree] at hm
      split_ifs at hm with hk
      · cases hm
        exact ⟨v, by rw [findSlot, if_pos hk], hw, hc, hv⟩
      · obtain ⟨w, hw', hrest⟩ := ih hl hm
        exact ⟨w, by rw [findSlot, if_neg hk, hw'], hrest⟩

/-- Putting keeps slots and trees in step. -/
theorem DenotesProps.put {vm : VM} {lo : ℕ} {l : List (PropKey × Slot)}
    {m : List (PropKey × Flags × Tree)} (h : DenotesProps vm lo l m) {key : PropKey} {fl : Flags}
    {v : JSValue} {t : Tree} (hw : fl.writable = true) (hc : fl.configurable = true)
    (hv : Denotes vm lo v t) :
    DenotesProps vm lo (putSlot key (.data v fl) l) (putTree key (fl, t) m) := by
  induction l generalizing m with
  | nil => cases h; exact .cons hw hc hv .nil
  | cons p l ih =>
    cases h with
    | cons hw' hc' hv' hl =>
      rw [putSlot, putTree]
      split_ifs
      · exact .cons hw hc hv hl
      · exact .cons hw' hc' hv' (ih hl)

end QuickjsDart
